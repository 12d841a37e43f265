import Stylesheet.Text.Bytes

/-!
# Cuts

A cut divides a text into the part taken and the part left. That the two make up the text is a
field of the type, so no operation on cuts can lose or invent a character.

`Cut.munch` takes units for as long as there are any. A rule says how many characters the next
unit has, with zero for the end; a unit that runs over the end of the text is cut short there.
-/

namespace Stylesheet.Text

structure Cut (cs : List Char) where
  taken : List Char
  rest : List Char
  /-- A closing delimiter was asked for and found, or none was asked for. -/
  closed : Bool := true
  taken_append_rest : taken ++ rest = cs

namespace Cut

variable {cs : List Char}

def characters (n : Nat) (cs : List Char) : Cut cs where
  taken := cs.take n
  rest := cs.drop n
  taken_append_rest := List.take_append_drop n cs

def takeWhile (p : Char → Bool) (cs : List Char) : Cut cs where
  taken := cs.takeWhile p
  rest := cs.dropWhile p
  taken_append_rest := List.takeWhile_append_dropWhile

def andThen (first : Cut cs) (second : Cut first.rest) : Cut cs where
  taken := first.taken ++ second.taken
  rest := second.rest
  closed := second.closed
  taken_append_rest := by
    rw [List.append_assoc, second.taken_append_rest, first.taken_append_rest]

theorem length_taken_add_rest (cut : Cut cs) :
    cut.taken.length + cut.rest.length = cs.length := by
  simpa using congrArg List.length cut.taken_append_rest

theorem length_rest_lt (cut : Cut cs) (h : cut.taken ≠ []) : cut.rest.length < cs.length := by
  have := cut.length_taken_add_rest
  have := List.length_pos_iff.mpr h
  omega

/-- What `unit` sees is the byte offset and the whole text from there on. -/
def munchLoop (unit : Nat → List Char → Nat) (offset owed : Nat) (taken : List Char) :
    List Char → List Char × List Char
  | [] => (taken.reverse, [])
  | c :: cs =>
    match owed with
    | k + 1 => munchLoop unit (offset + c.utf8Size) k (c :: taken) cs
    | 0 =>
      match unit offset (c :: cs) with
      | 0 => (taken.reverse, c :: cs)
      | k + 1 => munchLoop unit (offset + c.utf8Size) k (c :: taken) cs

theorem munchLoop_append (unit : Nat → List Char → Nat) (cs : List Char) :
    ∀ (offset owed : Nat) (taken : List Char),
      (munchLoop unit offset owed taken cs).1 ++ (munchLoop unit offset owed taken cs).2 =
        taken.reverse ++ cs := by
  induction cs with
  | nil => intro offset owed taken; rfl
  | cons c cs ih =>
    intro offset owed taken
    unfold munchLoop
    split
    · simp [ih]
    · split
      · rfl
      · simp [ih]

def munch (unit : Nat → List Char → Nat) (offset : Nat) (cs : List Char) : Cut cs :=
  let parts := munchLoop unit offset 0 [] cs
  { taken := parts.1
    rest := parts.2
    taken_append_rest := munchLoop_append unit cs offset 0 [] }

end Cut

end Stylesheet.Text
