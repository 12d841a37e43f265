import Stylesheet.Parse.State
import Stylesheet.Proofs.Node.Marker
import Stylesheet.Proofs.Parse.Fields
import Stylesheet.Proofs.Text.Bytes

/-!
# Checked slices

A text can be cut by byte offsets, and a cut can go wrong: an offset can be behind the end or inside
of a character, or the two ends can be the wrong way round. Here a run stops at once when something
that it asks for is not there (`Halt.missing`).

Cut in this way, a value has the same marker (`splitMarker_eq`) and a comment has the same content
(`comment_eq`) as without offsets, so none of the cuts goes wrong.
-/

namespace Stylesheet.Checked

open Text

/-- Why a run stops early. -/
inductive Halt where
  /-- A text, a list of tokens, a stack or an arena lacks what is asked for. -/
  | missing
  | failed (failure : Parse.Failure)

abbrev Run : Type → Type := Except Halt

@[simp]
theorem pure_eq_ok {α : Type} (a : α) : (pure a : Run α) = .ok a := rfl

@[simp]
theorem ok_bind {α β : Type} (a : α) (f : α → Run β) : (Except.ok a : Run α) >>= f = f a := rfl

@[simp]
theorem error_bind {α β : Type} (halt : Halt) (f : α → Run β) :
    (Except.error halt : Run α) >>= f = .error halt := rfl

def reach {α : Type} : Option α → Run α
  | some a => .ok a
  | none => .error .missing

@[simp]
theorem reach_some {α : Type} (a : α) : reach (some a) = .ok a := rfl

/-- The difference, if it is no less than zero. -/
def minus (m n : Nat) : Run Nat :=
  if n ≤ m then .ok (m - n) else .error .missing

@[simp]
theorem minus_add (m n : Nat) : minus (m + n) n = .ok m := by
  rw [minus, if_pos (Nat.le_add_left n m), Nat.add_sub_cancel]

def slice (cs : List Char) (start stop : Nat) : Run (List Char) :=
  reach (slice? cs start stop)

def sliceFrom (cs : List Char) (start : Nat) : Run (List Char) :=
  slice cs start (byteLength cs)

def sliceTo (cs : List Char) (stop : Nat) : Run (List Char) :=
  slice cs 0 stop

section

variable (front inner behind : List Char)

theorem slice_append :
    slice (front ++ inner ++ behind) (byteLength front) (byteLength front + byteLength inner) =
      .ok inner := by
  rw [slice, slice?_append, reach_some]

/-- The offset is inside of the only character. -/
example : slice ['é'] 0 1 = .error .missing := rfl

@[simp]
theorem sliceFrom_append : sliceFrom (front ++ behind) (byteLength front) = .ok behind := by
  have h := slice_append front behind []
  rwa [List.append_nil, ← byteLength_append] at h

@[simp]
theorem sliceTo_append : sliceTo (front ++ behind) (byteLength front) = .ok front := by
  have h := slice_append [] front behind
  rwa [List.nil_append, byteLength_nil, Nat.zero_add] at h

end

/-! ## Markers -/

/-- The offset of the last exclamation mark. -/
def lastMark? : List Char → Option Nat
  | [] => none
  | c :: cs =>
    match lastMark? cs with
    | some offset => some (c.utf8Size + offset)
    | none => if c = '!' then some 0 else none

/-- The value and its marker, if the last exclamation mark starts one. -/
def splitMarker (value : List Char) : Run (Option (List Char × List Char)) :=
  match lastMark? value with
  | none => return none
  | some mark => do
    let keyword ← sliceFrom value (mark + 1)
    if isImportant (dropLeadingBlanks keyword) then
      let front ← sliceTo value mark
      let stop := byteLength (dropTrailingBlanks front)
      return some (← sliceTo value stop, ← sliceFrom value stop)
    else return none

theorem notMem_of_lastMark? {cs : List Char} (h : lastMark? cs = none) : '!' ∉ cs := by
  induction cs with
  | nil => exact List.not_mem_nil
  | cons c cs ih =>
    rw [lastMark?] at h
    cases hlater : lastMark? cs with
    | some offset => simp [hlater] at h
    | none =>
      have hne : c ≠ '!' := by
        rintro rfl
        simp [hlater] at h
      simp [Ne.symm hne, ih hlater]

theorem exists_of_lastMark? {cs : List Char} {offset : Nat} (h : lastMark? cs = some offset) :
    ∃ front keyword, cs = front ++ '!' :: keyword ∧ '!' ∉ keyword ∧ offset = byteLength front := by
  induction cs generalizing offset with
  | nil => contradiction
  | cons c cs ih =>
    rw [lastMark?] at h
    cases hlater : lastMark? cs with
    | some later =>
      obtain ⟨front, keyword, rfl, hkeyword, rfl⟩ := ih hlater
      refine ⟨c :: front, keyword, rfl, hkeyword, ?_⟩
      simp only [hlater, Option.some.injEq] at h
      rw [byteLength_cons, h]
    | none =>
      simp only [hlater] at h
      split at h
      · next hmark =>
        obtain rfl := Option.some.inj h
        exact ⟨[], cs, by rw [hmark]; rfl, notMem_of_lastMark? hlater, rfl⟩
      · contradiction

/-- No cut around a marker goes wrong. -/
theorem splitMarker_eq (value : List Char) : splitMarker value = .ok (splitImportant? value) := by
  unfold splitMarker
  cases hmark : lastMark? value with
  | none =>
    rw [splitImportant?_of_notMem (notMem_of_lastMark? hmark)]
    rfl
  | some mark =>
    obtain ⟨front, keyword, rfl, hkeyword, rfl⟩ := exists_of_lastMark? hmark
    have hbehind : sliceFrom (front ++ '!' :: keyword) (byteLength front + 1) = .ok keyword := by
      have h := sliceFrom_append (front ++ ['!']) keyword
      rwa [List.append_assoc, byteLength_append] at h
    have hsplit : front ++ '!' :: keyword =
        dropTrailingBlanks front ++ (trailingBlanks front ++ '!' :: keyword) := by
      rw [← List.append_assoc, drop_append_trailingBlanks]
    have hvalue := sliceTo_append (dropTrailingBlanks front)
      (trailingBlanks front ++ '!' :: keyword)
    have hmarker := sliceFrom_append (dropTrailingBlanks front)
      (trailingBlanks front ++ '!' :: keyword)
    rw [← hsplit] at hvalue hmarker
    rw [splitImportant?_append hkeyword]
    dsimp only
    rw [hbehind, ok_bind]
    split
    · rw [sliceTo_append, ok_bind, hvalue, ok_bind, hmarker]
      rfl
    · rfl

/-! ## Comments -/

/-- What stands between the delimiters of a comment. -/
def commentContent (t : Token) : Run (List Char) :=
  let written := t.text.toList
  if t.unclosed then sliceFrom written 2
  else do
    let stop ← minus (byteLength written) 2
    slice written 2 stop

/-- The blanks in front of the text, which are all of the content if there is no text. -/
def commentLeft (content text : List Char) : Run (List Char) :=
  if text = [] then .ok content
  else do
    let stop ← minus (byteLength content) (byteLength (dropLeadingBlanks content))
    sliceTo content stop

def comment (before : String) (t : Token) : Run Comment := do
  let content ← commentContent t
  let text := dropTrailingBlanks (dropLeadingBlanks content)
  let left ← commentLeft content text
  let right ← sliceFrom content (byteLength left + byteLength text)
  return ⟨before, String.ofList left, String.ofList text, String.ofList right⟩

theorem commentContent_eq {t : Token} (ht : t.Shaped) (hkind : t.kind = .comment) :
    commentContent t = .ok (Comment.content t) := by
  obtain ⟨inner, hinner⟩ := ht.comment hkind
  have hopening : byteLength ['/', '*'] = 2 := rfl
  have hclosing : byteLength ['*', '/'] = 2 := rfl
  rw [Comment.content_eq hinner, commentContent, hinner, String.toList_ofList]
  cases t.unclosed with
  | true =>
    have hslice := sliceFrom_append ['/', '*'] inner
    rw [hopening] at hslice
    simpa using hslice
  | false =>
    have hslice := slice_append ['/', '*'] inner ['*', '/']
    have hlength : byteLength (['/', '*'] ++ inner ++ ['*', '/']) = 2 + byteLength inner + 2 := by
      rw [byteLength_append, byteLength_append, hopening, hclosing]
    rw [hopening] at hslice
    rw [if_neg Bool.false_ne_true, if_neg Bool.false_ne_true]
    change minus (byteLength (['/', '*'] ++ inner ++ ['*', '/'])) 2 >>= _ = _
    rw [hlength, minus_add, ok_bind]
    exact hslice

theorem commentLeft_eq (content : List Char) :
    commentLeft content (dropTrailingBlanks (dropLeadingBlanks content)) =
      .ok (leadingBlanks content) := by
  unfold commentLeft
  split
  · next hnone =>
    have hsplit := leadingBlanks_append_drop content
    rw [(trimmedStart_drop content).eq_nil hnone, List.append_nil] at hsplit
    rw [hsplit]
  · have hlength : byteLength content =
        byteLength (leadingBlanks content) + byteLength (dropLeadingBlanks content) := by
      rw [← byteLength_append, leadingBlanks_append_drop]
    have hslice := sliceTo_append (leadingBlanks content) (dropLeadingBlanks content)
    rw [leadingBlanks_append_drop] at hslice
    rw [hlength, minus_add, ok_bind, hslice]

/-- No cut in a comment goes wrong. -/
theorem comment_eq (before : String) {t : Token} (ht : t.Shaped) (hkind : t.kind = .comment) :
    comment before t = .ok (Comment.ofToken before t) := by
  let content := Comment.content t
  have hsplit : leadingBlanks content ++ dropTrailingBlanks (dropLeadingBlanks content) ++
      trailingBlanks (dropLeadingBlanks content) = content := by
    rw [List.append_assoc, drop_append_trailingBlanks, leadingBlanks_append_drop]
  have hright := sliceFrom_append
    (leadingBlanks content ++ dropTrailingBlanks (dropLeadingBlanks content))
    (trailingBlanks (dropLeadingBlanks content))
  rw [hsplit, byteLength_append] at hright
  rw [comment, commentContent_eq ht hkind, ok_bind]
  dsimp only
  rw [commentLeft_eq, ok_bind, hright]
  rfl

end Stylesheet.Checked
