import Stylesheet.Position

/-!
# Errors

A text fails to parse for one of seven reasons. Five of them can be repaired, and lenient parsing
does so; the other two end every parse.
-/

namespace Stylesheet

inductive ErrorKind where
  | unclosedBlock
  | unexpectedCloseBrace
  | unclosedComment
  | unclosedQuote
  | missingPropertyValue
  | unexpectedOpenBrace
  | atRuleWithoutName
  deriving DecidableEq, Repr

namespace ErrorKind

def reason : ErrorKind → String
  | unclosedBlock => "Unclosed block"
  | unexpectedCloseBrace => "Unexpected \x7d"
  | unclosedComment => "Unclosed comment"
  | unclosedQuote => "Unclosed quote"
  | missingPropertyValue => "Missing property value"
  | unexpectedOpenBrace => "Unexpected \x7b"
  | atRuleWithoutName => "At-rule without name"

/-- Lenient parsing repairs these. -/
def isRecoverable : ErrorKind → Bool
  | unexpectedOpenBrace => false
  | atRuleWithoutName => false
  | _ => true

end ErrorKind

structure ParseError where
  kind : ErrorKind
  position : Position
  /-- The whole text that was to be parsed. -/
  input : String
  file : Option String
  deriving DecidableEq, Repr

def ParseError.message (e : ParseError) : String :=
  e.kind.reason ++ " at line " ++ e.position.line.repr ++ ":" ++ e.position.column.repr

end Stylesheet
