import Stylesheet.Text.Bytes

/-!
# Bracket groups

A group runs from a round or square opening bracket to the bracket that closes it. Brackets inside
a group have to match as well; those in strings and after a backslash do not count.

`lookahead` reads a text from an opening bracket on. It stops where the group closes, or where it
is clear that it never will: at a closer of the wrong kind or at the end of the text. In that case
it names the openers that are still waiting, and from none of them a group starts.
-/

namespace Stylesheet

def isQuote (c : Char) : Bool :=
  c == '"' || c == '\''

namespace Bracket

def closerOf? : Char → Option Char
  | '(' => some ')'
  | '[' => some ']'
  | _ => none

def isOpener (c : Char) : Bool :=
  (closerOf? c).isSome

def isCloser (c : Char) : Bool :=
  c == ')' || c == ']'

structure Waiting where
  closer : Char
  /-- The byte offset of the opener. -/
  offset : Nat

/-- How far a lookahead has come. -/
structure Scan where
  /-- The byte offset of the next character. -/
  offset : Nat
  length : Nat := 0
  /-- The innermost opener comes first. -/
  waiting : List Waiting := []
  quote : Option Char := none
  escaped : Bool := false

inductive Lookahead where
  /-- The group has this many characters. -/
  | group (length : Nat)
  /-- There is no group; the byte offsets of the openers left waiting, innermost first. -/
  | unmatched (openers : List Nat)

namespace Scan

def past (s : Scan) (c : Char) : Scan :=
  { s with offset := s.offset + c.utf8Size, length := s.length + 1 }

def giveUp (s : Scan) : Lookahead :=
  .unmatched (s.waiting.map Waiting.offset)

/-- Reads one character that stands outside of strings and is no escape. -/
def bracket (s : Scan) (c : Char) : Except Lookahead Scan :=
  match closerOf? c with
  | some closer => .ok { s.past c with waiting := ⟨closer, s.offset⟩ :: s.waiting }
  | none =>
    if isCloser c then
      match s.waiting with
      | [] => .error s.giveUp
      | w :: outer =>
        if w.closer ≠ c then .error s.giveUp
        else if outer.isEmpty then .error (.group (s.length + 1))
        else .ok { s.past c with waiting := outer }
    else .ok (s.past c)

/-- Reads one character: either the scan goes on, or the lookahead is decided. -/
def read (s : Scan) (c : Char) : Except Lookahead Scan :=
  if s.escaped then .ok { s.past c with escaped := false }
  else if c = '\\' then .ok { s.past c with escaped := true }
  else
    match s.quote with
    | some q => .ok { s.past c with quote := if c = q then none else some q }
    | none => if isQuote c then .ok { s.past c with quote := some c } else s.bracket c

def run (s : Scan) : List Char → Lookahead
  | [] => s.giveUp
  | c :: cs =>
    match s.read c with
    | .ok s => s.run cs
    | .error result => result

end Scan

def lookahead (offset : Nat) (cs : List Char) : Lookahead :=
  { offset : Scan }.run cs

end Bracket

end Stylesheet
