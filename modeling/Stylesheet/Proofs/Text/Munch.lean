import Stylesheet.Text.Cut

/-!
# Munching unit by unit

`Munches` describes a munch by the units it takes, without a loop and without characters owed.
Every munch is described in exactly one way (`munches_munch`, `Munches.munchLoop_eq`), so a fact
about a munch is proved by induction on the units taken.

A unit that reaches over the end of the text takes all that is left. Every other munch that leaves
text behind leaves it where the rule finds no unit (`Munches.unit_rest`).
-/

namespace Stylesheet.Text.Cut

/-- From the offset and the text on, the units of the rule take `taken` and leave `rest`. -/
inductive Munches (unit : Nat → List Char → Nat) :
    Nat → List Char → List Char → List Char → Prop where
  | nothing (offset : Nat) : Munches unit offset [] [] []
  | stop {offset : Nat} {cs : List Char} (h : unit offset cs = 0) : Munches unit offset cs [] cs
  | next {offset : Nat} {xs cs taken rest : List Char} (hxs : xs ≠ [])
      (h : unit offset (xs ++ cs) = xs.length)
      (behind : Munches unit (offset + byteLength xs) cs taken rest) :
      Munches unit offset (xs ++ cs) (xs ++ taken) rest
  | short {offset : Nat} {cs : List Char} (hcs : cs ≠ []) (h : cs.length < unit offset cs) :
      Munches unit offset cs cs []

variable {unit : Nat → List Char → Nat} {offset : Nat} {cs taken rest : List Char}

theorem eq_of_taken {first second : Cut cs} (htaken : first.taken = second.taken)
    (hclosed : first.closed = second.closed) : first = second := by
  have htext := first.taken_append_rest.trans second.taken_append_rest.symm
  rw [htaken] at htext
  have hrest := List.append_cancel_left htext
  cases first
  cases second
  simp_all

/-! ## The loop -/

theorem munchLoop_owed (unit : Nat → List Char → Nat) (xs cs : List Char) (offset : Nat)
    (seen : List Char) :
    munchLoop unit offset xs.length seen (xs ++ cs) =
      munchLoop unit (offset + byteLength xs) 0 (xs.reverse ++ seen) cs := by
  induction xs generalizing offset seen with
  | nil => simp
  | cons x xs ih =>
    rw [List.length_cons, List.cons_append, munchLoop, ih]
    simp [Nat.add_assoc]

theorem munchLoop_owed_over (unit : Nat → List Char → Nat) (cs : List Char) {owed : Nat}
    (h : cs.length ≤ owed) (offset : Nat) (seen : List Char) :
    munchLoop unit offset owed seen cs = (seen.reverse ++ cs, []) := by
  induction cs generalizing offset seen owed with
  | nil => simp [munchLoop]
  | cons c cs ih =>
    cases owed with
    | zero => simp at h
    | succ owed =>
      have hcs : cs.length ≤ owed := by simpa using h
      rw [munchLoop, ih hcs]
      simp

theorem munchLoop_unit (unit : Nat → List Char → Nat) {offset : Nat} {cs : List Char}
    (hcs : cs ≠ []) (h : unit offset cs ≠ 0) (seen : List Char) :
    munchLoop unit offset 0 seen cs = munchLoop unit offset (unit offset cs) seen cs := by
  cases cs with
  | nil => contradiction
  | cons c cs =>
    obtain ⟨n, hn⟩ := Nat.exists_eq_succ_of_ne_zero h
    rw [munchLoop, hn, munchLoop]

theorem Munches.munchLoop_eq (h : Munches unit offset cs taken rest) (seen : List Char) :
    munchLoop unit offset 0 seen cs = (seen.reverse ++ taken, rest) := by
  induction h generalizing seen with
  | nothing => simp [munchLoop]
  | @stop offset cs h =>
    cases cs with
    | nil => simp [munchLoop]
    | cons c cs => simp [munchLoop, h]
  | @next offset xs cs taken rest hxs h _ ih =>
    have hunit : unit offset (xs ++ cs) ≠ 0 := by simpa [h] using hxs
    rw [munchLoop_unit unit (by simp [hxs]) hunit, h, munchLoop_owed, ih]
    simp
  | @short offset cs hcs h =>
    rw [munchLoop_unit unit hcs (by omega), munchLoop_owed_over unit cs (Nat.le_of_lt h)]

theorem exists_munches (unit : Nat → List Char → Nat) (offset : Nat) (cs : List Char) :
    ∃ taken rest, Munches unit offset cs taken rest := by
  by_cases hcs : cs = []
  · subst hcs
    exact ⟨[], [], .nothing offset⟩
  by_cases hstop : unit offset cs = 0
  · exact ⟨[], cs, .stop hstop⟩
  by_cases hover : cs.length < unit offset cs
  · exact ⟨cs, [], .short hcs hover⟩
  have hlength : (cs.take (unit offset cs)).length = unit offset cs := by
    rw [List.length_take]
    omega
  have hxs : cs.take (unit offset cs) ≠ [] := by
    simp [hcs, hstop]
  have hshorter : (cs.drop (unit offset cs)).length < cs.length := by
    rw [List.length_drop]
    omega
  obtain ⟨taken, rest, behind⟩ := exists_munches unit
    (offset + byteLength (cs.take (unit offset cs))) (cs.drop (unit offset cs))
  refine ⟨cs.take (unit offset cs) ++ taken, rest, ?_⟩
  have hnext := @Munches.next unit _ _ _ _ _ hxs (by rw [List.take_append_drop, hlength]) behind
  rwa [List.take_append_drop] at hnext
termination_by cs.length

theorem munches_munch (unit : Nat → List Char → Nat) (offset : Nat) (cs : List Char) :
    Munches unit offset cs (munch unit offset cs).taken (munch unit offset cs).rest := by
  obtain ⟨taken, rest, h⟩ := exists_munches unit offset cs
  have hloop := h.munchLoop_eq []
  simpa [munch, hloop] using h

theorem Munches.taken_munch (h : Munches unit offset cs taken rest) :
    (munch unit offset cs).taken = taken := by
  simp [munch, h.munchLoop_eq []]

theorem Munches.rest_munch (h : Munches unit offset cs taken rest) :
    (munch unit offset cs).rest = rest := by
  simp [munch, h.munchLoop_eq []]

/-- Rules that agree from the offset on take the same. -/
theorem Munches.congr {rule : Nat → List Char → Nat} (h : Munches unit offset cs taken rest)
    (hrule : ∀ o cs, offset ≤ o → rule o cs = unit o cs) : Munches rule offset cs taken rest := by
  induction h with
  | nothing offset => exact .nothing offset
  | @stop offset cs h => exact .stop ((hrule offset cs (Nat.le_refl _)).trans h)
  | @next offset xs cs taken rest hxs h _ ih =>
    have hlater : ∀ o cs, offset + byteLength xs ≤ o → rule o cs = unit o cs :=
      fun o cs ho ↦ hrule o cs (Nat.le_trans (Nat.le_add_right _ _) ho)
    exact .next hxs ((hrule offset _ (Nat.le_refl _)).trans h) (ih hlater)
  | @short offset cs hcs h =>
    exact .short hcs (Nat.lt_of_lt_of_eq h (hrule offset cs (Nat.le_refl _)).symm)

/-! ## What is left -/

theorem Munches.append (h : Munches unit offset cs taken rest) : taken ++ rest = cs := by
  rw [← h.taken_munch, ← h.rest_munch]
  exact (munch unit offset cs).taken_append_rest

/-- Text is left only where the rule finds no unit. -/
theorem Munches.unit_rest (h : Munches unit offset cs taken rest) (hrest : rest ≠ []) :
    unit (offset + byteLength taken) rest = 0 := by
  induction h with
  | nothing => contradiction
  | stop h => simpa using h
  | next _ _ _ ih => simpa [Nat.add_assoc] using ih hrest
  | short => contradiction

end Stylesheet.Text.Cut
