import Stylesheet.Position
import Stylesheet.Token.Lexeme

/-!
# Cursors

A cursor stands somewhere in a text: it knows the text from there on, the byte offset and the
position reached, and the brackets already known to start no group. It moves over cuts of the text
in front of it and never goes back.
-/

namespace Stylesheet

open Text

structure Cursor where
  rest : List Char
  offset : Nat := 0
  position : Position := {}
  unmatched : Memory := []

namespace Cursor

/-- Stands at the start of the text, behind a byte order mark. -/
def ofString (text : String) : Cursor where
  rest := stripMark text.toList

def peek? (c : Cursor) (ahead : Nat) : Option Char :=
  c.rest[ahead]?

def move (c : Cursor) (cut : Cut c.rest) : Cursor :=
  { c with
    rest := cut.rest
    offset := c.offset + byteLength cut.taken
    position := c.position.advance cut.taken
    unmatched := c.unmatched.onward (c.offset + byteLength cut.taken) }

def learn (c : Cursor) : Cursor :=
  { c with unmatched := c.unmatched.learn c.offset c.rest }

/-- One character on; at the end the cursor stays. -/
def step (c : Cursor) : Cursor :=
  c.move (Cut.characters 1 c.rest)

def skipSpace (c : Cursor) : Cursor :=
  c.move (Lexeme.space c.rest)

def skipAtWord (c : Cursor) : Cursor :=
  c.move (Lexeme.atWord c.rest)

/-- Also tells whether the closing quote was found. -/
def skipQuoted (c : Cursor) (quote : Char) : Bool × Cursor :=
  let cut := Lexeme.quoted quote c.rest
  (cut.closed, c.move cut)

/-- Also tells whether the end of the comment was found. -/
def skipComment (c : Cursor) : Bool × Cursor :=
  let cut := Lexeme.comment c.rest
  (cut.closed, c.move cut)

/-- Also tells whether there was a word. -/
def skipWord (c : Cursor) : Bool × Cursor :=
  let cut := Lexeme.word c.unmatched c.offset c.rest
  (!cut.taken.isEmpty, (c.move cut).learn)

end Cursor

end Stylesheet
