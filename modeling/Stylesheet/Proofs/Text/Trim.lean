import Stylesheet.Text.Blank

/-!
# Trimmed texts

A text is trimmed at an end when it is empty or its character there is no blank. Dropping the
blanks at an end trims it (`trimmedEnd_drop`, `trimmedStart_drop`), and trimming a trimmed text with
blanks behind it gives it back (`dropTrailingBlanks_append`).
-/

namespace Stylesheet.Text

def TrimmedEnd (cs : List Char) : Prop :=
  ∀ c, cs.getLast? = some c → isBlank c = false

def TrimmedStart (cs : List Char) : Prop :=
  ∀ c, cs.head? = some c → isBlank c = false

/-- Made of blanks alone. -/
def Blanks (cs : List Char) : Prop :=
  ∀ c ∈ cs, isBlank c = true

variable {cs ds : List Char}

theorem isBlank_of_mem_leadingBlanks {c : Char} (h : c ∈ leadingBlanks cs) : isBlank c = true :=
  List.all_eq_true.mp List.all_takeWhile c h

theorem isBlank_of_mem_trailingBlanks {c : Char} (h : c ∈ trailingBlanks cs) :
    isBlank c = true := by
  rw [trailingBlanks, List.mem_reverse] at h
  exact isBlank_of_mem_leadingBlanks h

theorem trimmedEnd_nil : TrimmedEnd [] := by
  intro c hc
  simp at hc

theorem trimmedStart_nil : TrimmedStart [] := by
  intro c hc
  simp at hc

theorem trimmedStart_drop (cs : List Char) : TrimmedStart (dropLeadingBlanks cs) := by
  intro c hc
  have hplain := List.head?_dropWhile_not isBlank cs
  rw [dropLeadingBlanks] at hc
  rw [hc] at hplain
  simpa using hplain

theorem trimmedEnd_drop (cs : List Char) : TrimmedEnd (dropTrailingBlanks cs) := by
  intro c hc
  rw [dropTrailingBlanks, List.getLast?_reverse] at hc
  exact trimmedStart_drop cs.reverse c hc

/-- A text keeps its start when its end is cut off. -/
theorem TrimmedStart.of_append (h : TrimmedStart (cs ++ ds)) : TrimmedStart cs := by
  intro c hc
  apply h
  rw [List.head?_append, hc, Option.some_or]

theorem TrimmedStart.dropTrailingBlanks (h : TrimmedStart cs) :
    TrimmedStart (dropTrailingBlanks cs) := by
  rw [← drop_append_trailingBlanks cs] at h
  exact h.of_append

/-- A text that starts with no blank is not made of blanks alone. -/
theorem TrimmedStart.eq_nil (h : TrimmedStart cs) (hnil : Text.dropTrailingBlanks cs = []) :
    cs = [] := by
  have hall : trailingBlanks cs = cs := by
    have hsplit := drop_append_trailingBlanks cs
    rwa [hnil, List.nil_append] at hsplit
  cases cs with
  | nil => rfl
  | cons c cs =>
    have hmem : c ∈ trailingBlanks (c :: cs) := by
      rw [hall]
      exact List.mem_cons_self
    exact absurd ((h c rfl).symm.trans (isBlank_of_mem_trailingBlanks hmem)) Bool.false_ne_true

theorem blanks_append_iff : Blanks (cs ++ ds) ↔ Blanks cs ∧ Blanks ds :=
  List.forall_mem_append

theorem trimmedEnd_append (h : TrimmedEnd ds) (hds : ds ≠ []) : TrimmedEnd (cs ++ ds) := by
  intro c hc
  apply h
  rw [List.getLast?_append, List.getLast?_eq_some_getLast hds, Option.some_or] at hc
  rw [List.getLast?_eq_some_getLast hds, hc]

theorem TrimmedEnd.leadingBlanks_reverse (h : TrimmedEnd cs) : leadingBlanks cs.reverse = [] := by
  have hhead : cs.reverse.head? = cs.getLast? := List.head?_reverse
  unfold leadingBlanks
  cases hcs : cs.reverse with
  | nil => rfl
  | cons c rest =>
    rw [hcs, List.head?_cons] at hhead
    simp [h c hhead.symm]

theorem TrimmedEnd.dropLeadingBlanks_reverse (h : TrimmedEnd cs) :
    dropLeadingBlanks cs.reverse = cs.reverse := by
  have hsplit := leadingBlanks_append_drop cs.reverse
  rwa [h.leadingBlanks_reverse, List.nil_append] at hsplit

theorem dropTrailingBlanks_append (hcs : TrimmedEnd cs) (hds : ∀ c ∈ ds, isBlank c = true) :
    dropTrailingBlanks (cs ++ ds) = cs := by
  have hrest := hcs.dropLeadingBlanks_reverse
  unfold dropLeadingBlanks at hrest
  rw [dropTrailingBlanks, dropLeadingBlanks, List.reverse_append,
    List.dropWhile_append_of_pos (by simpa using hds), hrest, List.reverse_reverse]

theorem trailingBlanks_append (hcs : TrimmedEnd cs) (hds : Blanks ds) :
    trailingBlanks (cs ++ ds) = ds := by
  have hsplit := drop_append_trailingBlanks (cs ++ ds)
  rw [dropTrailingBlanks_append hcs hds] at hsplit
  exact List.append_cancel_left hsplit

/-- More blanks at the end make no difference. -/
theorem dropTrailingBlanks_append_blanks (cs : List Char) (hds : ∀ c ∈ ds, isBlank c = true) :
    dropTrailingBlanks (cs ++ ds) = dropTrailingBlanks cs := by
  rw [dropTrailingBlanks, dropTrailingBlanks, dropLeadingBlanks, List.reverse_append,
    List.dropWhile_append_of_pos (by simpa using hds)]
  rfl

end Stylesheet.Text
