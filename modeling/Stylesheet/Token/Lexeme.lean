import Stylesheet.Text.Blank
import Stylesheet.Text.Cut
import Stylesheet.Token.Basic
import Stylesheet.Token.Bracket

/-!
# Lexemes

Each kind of token is a cut at the front of a text that is not empty. A backslash and the character
after it stay together in strings, words and at-words; in comments a backslash means nothing.

A word keeps bracket groups whole. It stops in front of a bracket that no group starts with, and
brackets known as such need not be looked at again: `Memory` holds their byte offsets.
-/

namespace Stylesheet

open Text

def startsComment : List Char → Bool
  | '/' :: '*' :: _ => true
  | _ => false

/-- Byte offsets of openers that no group starts with, in ascending order. -/
abbrev Memory := List Nat

namespace Memory

/-- Offsets are asked for in ascending order, so those in front of one asked for have served. -/
def onward (memory : Memory) (offset : Nat) : Memory :=
  memory.dropWhile (· < offset)

def recalls (memory : Memory) (offset : Nat) : Bool :=
  (memory.onward offset).head? == some offset

def insert : Memory → Nat → Memory
  | [], offset => [offset]
  | m :: memory, offset =>
    if offset < m then offset :: m :: memory
    else if offset = m then m :: memory
    else m :: insert memory offset

/-- Looks at the text from `offset` on and, if an opener that starts no group stands there, keeps
all openers that are thereby known to start none. -/
def learn (memory : Memory) (offset : Nat) : List Char → Memory
  | [] => memory
  | c :: cs =>
    if Bracket.isOpener c && !memory.recalls offset then
      match Bracket.lookahead offset (c :: cs) with
      | .group _ => memory
      | .unmatched openers => openers.foldl insert memory
    else memory

end Memory

namespace Lexeme

def space (cs : List Char) : Cut cs :=
  Cut.takeWhile isBlank cs

def quotedUnit (quote : Char) : List Char → Nat
  | [] => 0
  | c :: _ => if c = '\\' then 2 else if c = quote then 0 else 1

/-- The first character is taken for the opening quote, whatever it is. -/
def quoted (quote : Char) (cs : List Char) : Cut cs :=
  let opening := Cut.characters 1 cs
  let inner := Cut.munch (fun _ ↦ quotedUnit quote) 0 opening.rest
  let closing := Cut.characters 1 inner.rest
  { (opening.andThen inner).andThen closing with closed := !inner.rest.isEmpty }

def commentUnit : List Char → Nat
  | '*' :: '/' :: _ => 0
  | _ => 1

/-- The first two characters are taken for the opening, whatever they are. -/
def comment (cs : List Char) : Cut cs :=
  let opening := Cut.characters 2 cs
  let inner := Cut.munch (fun _ ↦ commentUnit) 0 opening.rest
  let closing := Cut.characters 2 inner.rest
  { (opening.andThen inner).andThen closing with closed := !inner.rest.isEmpty }

def endsAtWord (c : Char) : Bool :=
  isBlank c || isQuote c || c == '{' || c == '}' || c == ';' || c == '('

def atWordUnit : List Char → Nat
  | [] => 0
  | c :: cs =>
    if endsAtWord c || startsComment (c :: cs) then 0 else if c = '\\' then 2 else 1

/-- The first character is taken for the at-sign, whatever it is. -/
def atWord (cs : List Char) : Cut cs :=
  let sign := Cut.characters 1 cs
  sign.andThen (Cut.munch (fun _ ↦ atWordUnit) 0 sign.rest)

def endsWord (c : Char) : Bool :=
  isBlank c || isQuote c || c == '{' || c == '}' || c == ';' || c == ':'

def groupUnit (memory : Memory) (offset : Nat) (cs : List Char) : Nat :=
  if memory.recalls offset then 0
  else
    match Bracket.lookahead offset cs with
    | .group length => length
    | .unmatched _ => 0

def wordUnit (memory : Memory) (offset : Nat) : List Char → Nat
  | [] => 0
  | c :: cs =>
    if endsWord c || startsComment (c :: cs) then 0
    else if c = '\\' then 2
    else if Bracket.isOpener c then groupUnit memory offset (c :: cs)
    else 1

/-- Nothing is taken where no word starts. -/
def word (memory : Memory) (offset : Nat) (cs : List Char) : Cut cs :=
  Cut.munch (wordUnit memory) offset cs

theorem space_taken_ne_nil {c : Char} {cs : List Char} (h : isBlank c = true) :
    (space (c :: cs)).taken ≠ [] := by
  simp [space, Cut.takeWhile, h]

theorem quoted_taken_ne_nil (quote c : Char) (cs : List Char) :
    (quoted quote (c :: cs)).taken ≠ [] := by
  simp [quoted, Cut.andThen, Cut.characters]

theorem comment_taken_ne_nil (c : Char) (cs : List Char) : (comment (c :: cs)).taken ≠ [] := by
  simp [comment, Cut.andThen, Cut.characters]

theorem atWord_taken_ne_nil (c : Char) (cs : List Char) : (atWord (c :: cs)).taken ≠ [] := by
  simp [atWord, Cut.andThen, Cut.characters]

theorem single_taken_ne_nil (c : Char) (cs : List Char) :
    (Cut.characters 1 (c :: cs)).taken ≠ [] := by
  simp [Cut.characters]

end Lexeme

/-- The kind and the extent of the token at the front of a text. -/
structure Lexeme (cs : List Char) where
  kind : TokenKind
  cut : Cut cs
  taken_ne_nil : cut.taken ≠ []

namespace Lexeme

def single? : Char → Option TokenKind
  | '{' => some .openCurly
  | '}' => some .closeCurly
  | ';' => some .semicolon
  | ':' => some .colon
  | _ => none

/-- A bracket that no group starts with is no word and becomes a token of its own. -/
def wordOrOther (memory : Memory) (offset : Nat) (c : Char) (cs : List Char) : Lexeme (c :: cs) :=
  let cut := word memory offset (c :: cs)
  if h : cut.taken = [] then ⟨.other, Cut.characters 1 _, single_taken_ne_nil c cs⟩
  else ⟨.word, cut, h⟩

/-- The first character, and for comments the second, decides the kind. -/
def ofText? (memory : Memory) (offset : Nat) : (cs : List Char) → Option (Lexeme cs)
  | [] => none
  | c :: cs =>
    if h : isBlank c then some ⟨.space, space _, space_taken_ne_nil h⟩
    else if isQuote c then some ⟨.string, quoted c _, quoted_taken_ne_nil c c cs⟩
    else if startsComment (c :: cs) then some ⟨.comment, comment _, comment_taken_ne_nil c cs⟩
    else
      match single? c with
      | some kind => some ⟨kind, Cut.characters 1 _, single_taken_ne_nil c cs⟩
      | none =>
        if c = '@' then some ⟨.atWord, atWord _, atWord_taken_ne_nil c cs⟩
        else some (wordOrOther memory offset c cs)

end Lexeme

end Stylesheet
