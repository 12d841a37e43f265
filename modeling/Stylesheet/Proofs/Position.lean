import Stylesheet.Position

/-!
# Counting lines and columns

The position that is carried through a text is the one found by counting: the line by the line
feeds in the text, the column by the characters behind the last of them (`advance_eq_behind`).
Going on through a text leads to a later position, in the order of positions as they are compared
(`compare_advance`).
-/

namespace Stylesheet.Position

/-- The position of the character that follows the text, by counting. -/
def behind (cs : List Char) : Position where
  line := 1 + cs.count '\n'
  column := 1 + (cs.reverse.takeWhile (· != '\n')).length

theorem behind_concat (cs : List Char) (c : Char) : behind (cs ++ [c]) = (behind cs).after c := by
  unfold behind after
  rw [List.count_append, List.reverse_append, List.reverse_singleton, List.singleton_append]
  by_cases hc : c = '\n'
  · simp [hc, Nat.add_assoc]
  · simp [hc, Nat.add_comm]

theorem advance_eq_behind (cs : List Char) : ({} : Position).advance cs = behind cs := by
  rw [← List.reverse_reverse cs]
  induction cs.reverse with
  | nil => rfl
  | cons c front ih =>
    rw [List.reverse_cons, advance_append, ih, behind_concat]
    rfl

/-! ## Texts that start further on -/

/-- Where a position is found if the text that it is counted in starts at `start`. -/
def continued (start p : Position) : Position where
  line := start.line + p.line - 1
  column := if p.line = 1 then start.column + p.column - 1 else p.column

theorem continued_after (start : Position) {p : Position} (hline : 1 ≤ p.line)
    (hcolumn : 1 ≤ p.column) (c : Char) :
    start.continued (p.after c) = (start.continued p).after c := by
  unfold continued after
  by_cases hc : c = '\n'
  · have hlater : p.line ≠ 0 := by omega
    have hcount : start.line + (p.line + 1) - 1 = start.line + p.line - 1 + 1 := by omega
    simp [hc, hlater, hcount]
  · by_cases hfirst : p.line = 1
    · have hcount : start.column + (p.column + 1) - 1 = start.column + p.column - 1 + 1 := by omega
      simp [hc, hfirst, hcount]
    · simp [hc, hfirst]

theorem advance_eq_continued (start : Position) (cs : List Char) :
    start.advance cs = start.continued (behind cs) := by
  rw [← List.reverse_reverse cs]
  induction cs.reverse with
  | nil => rfl
  | cons c front ih =>
    have hline : 1 ≤ (behind front.reverse).line := Nat.le_add_right 1 _
    have hcolumn : 1 ≤ (behind front.reverse).column := Nat.le_add_right 1 _
    rw [List.reverse_cons, advance_append, ih, behind_concat, continued_after start hline hcolumn]
    rfl

/-! ## Order -/

variable {p q r : Position}

theorem compare_eq_lt_iff :
    compare p q = .lt ↔ p.line < q.line ∨ p.line = q.line ∧ p.column < q.column := by
  have hdef : compare p q = (compare p.line q.line).then (compare p.column q.column) := rfl
  rw [hdef, Ordering.then_eq_lt, Nat.compare_eq_lt, Nat.compare_eq_eq, Nat.compare_eq_lt]

theorem compare_trans (hpq : compare p q = .lt) (hqr : compare q r = .lt) :
    compare p r = .lt := by
  rw [compare_eq_lt_iff] at *
  omega

theorem compare_after (p : Position) (c : Char) : compare p (p.after c) = .lt := by
  rw [compare_eq_lt_iff, after]
  split
  · exact .inl (Nat.lt_succ_self _)
  · exact .inr ⟨rfl, Nat.lt_succ_self _⟩

theorem compare_advance (p : Position) {cs : List Char} (h : cs ≠ []) :
    compare p (p.advance cs) = .lt := by
  induction cs generalizing p with
  | nil => contradiction
  | cons c cs ih =>
    rw [advance_cons]
    by_cases hcs : cs = []
    · rw [hcs]
      exact compare_after p c
    · exact compare_trans (compare_after p c) (ih (p.after c) hcs)

end Stylesheet.Position
