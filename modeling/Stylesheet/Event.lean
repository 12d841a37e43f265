import Stylesheet.Error

/-!
# Events

What a parse reports on its way. Four kinds of events stand for a repair of the text, each of which
strict parsing refuses to make.
-/

namespace Stylesheet

inductive Event where
  | tokenized (tokens : Nat)
  | parsing (strict : Bool) (bytes : Nat)
  /-- A string or a comment without an end is taken to end with the text. -/
  | readingToEnd (position : Position) (kind : ErrorKind)
  /-- A closing brace without a block ends the stylesheet; what follows stays as it is. -/
  | unexpectedCloseBrace (position : Position)
  | closingBlock (position : Position)
  /-- A statement that makes no node is kept as the text it is. -/
  | keepingText (position : Position) (text : String)
  | parsed (nodes : Nat)
  deriving DecidableEq, Repr

namespace Event

def level : Event → String
  | tokenized _ => "TRACE"
  | _ => "DEBUG"

def message : Event → String
  | tokenized _ => "tokenized"
  | parsing _ _ => "parsing"
  | readingToEnd _ _ => "reading to end of input"
  | unexpectedCloseBrace _ => "unexpected \x7d, keeping the rest as trailing text"
  | closingBlock _ => "closing unclosed block"
  | keepingText _ _ => "keeping as raw text"
  | parsed _ => "parsed"

def isRepair : Event → Bool
  | readingToEnd _ _ => true
  | unexpectedCloseBrace _ => true
  | closingBlock _ => true
  | keepingText _ _ => true
  | _ => false

end Event

end Stylesheet
