/-!
# Byte offsets in a text

Texts are lists of characters; offsets into them count the bytes of their UTF-8 form. A slice
exists when both of its ends fall between two characters.
-/

namespace Stylesheet.Text

def byteLength (cs : List Char) : Nat :=
  cs.foldl (fun bytes c ↦ bytes + c.utf8Size) 0

@[simp]
theorem byteLength_nil : byteLength [] = 0 := rfl

@[simp]
theorem byteLength_append (xs ys : List Char) :
    byteLength (xs ++ ys) = byteLength xs + byteLength ys := by
  have hstart (start : Nat) (cs : List Char) :
      cs.foldl (fun bytes c ↦ bytes + c.utf8Size) start = start + byteLength cs := by
    induction cs generalizing start with
    | nil => rfl
    | cons c cs ih =>
      rw [byteLength, List.foldl_cons, List.foldl_cons, ih, ih (0 + c.utf8Size)]
      omega
  rw [byteLength, List.foldl_append, hstart]
  rfl

@[simp]
theorem byteLength_cons (c : Char) (cs : List Char) :
    byteLength (c :: cs) = c.utf8Size + byteLength cs := by
  rw [show c :: cs = [c] ++ cs from rfl, byteLength_append]
  simp [byteLength]

/-- How many characters the first `bytes` bytes hold, if no character is cut in two there. -/
def charactersIn? (bytes : Nat) (cs : List Char) : Option Nat :=
  go bytes 0 cs
where
  go (bytes seen : Nat) : List Char → Option Nat
    | [] => if bytes = 0 then some seen else none
    | c :: cs =>
      if bytes = 0 then some seen
      else if c.utf8Size ≤ bytes then go (bytes - c.utf8Size) (seen + 1) cs
      else none

def slice? (cs : List Char) (start stop : Nat) : Option (List Char) := do
  guard (start ≤ stop)
  let first ← charactersIn? start cs
  let last ← charactersIn? stop cs
  return (cs.take last).drop first

/-- A leading byte order mark is no part of the text. Only the first one counts as a mark. -/
def stripMark : List Char → List Char
  | '\uFEFF' :: cs => cs
  | cs => cs

end Stylesheet.Text
