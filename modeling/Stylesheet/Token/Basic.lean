import Stylesheet.Position

/-!
# Tokens

A token is a stretch of the text with its kind, its bytes and the positions of its first and last
characters. Only a string or a comment can be unclosed: it then runs to the end of the text.
-/

namespace Stylesheet

inductive TokenKind where
  | word
  | string
  | comment
  | atWord
  | openCurly
  | closeCurly
  | semicolon
  | colon
  | space
  /-- A bracket that no group starts with. -/
  | other
  deriving DecidableEq, Repr

def TokenKind.name : TokenKind → String
  | word => "word"
  | string => "string"
  | comment => "comment"
  | atWord => "at-word"
  | openCurly => "\x7b"
  | closeCurly => "\x7d"
  | semicolon => ";"
  | colon => ":"
  | space => "space"
  | other => "other"

structure Token where
  kind : TokenKind
  text : String
  span : Span
  /-- Of the first character. -/
  start : Position
  /-- Of the last character. -/
  stop : Position
  unclosed : Bool
  deriving DecidableEq, Repr

namespace Token

/-- The text kept when the token becomes part of a field: an unclosed comment is closed, so that
what is printed after it stays outside of it. -/
def kept (t : Token) : String :=
  if t.kind = .comment ∧ t.unclosed then t.text ++ "*/" else t.text

end Token

def keptText (ts : List Token) : String :=
  String.join (ts.map Token.kept)

@[simp]
theorem keptText_nil : keptText [] = "" := rfl

@[simp]
theorem keptText_cons (t : Token) (ts : List Token) :
    keptText (t :: ts) = t.kept ++ keptText ts := by
  simp [keptText]

@[simp]
theorem keptText_append (ts us : List Token) :
    keptText (ts ++ us) = keptText ts ++ keptText us := by
  simp [keptText]

end Stylesheet
