import Stylesheet.Node.Important
import Stylesheet.Proofs.Text.Trim

/-!
# Splitting off the marker

Only the last exclamation mark of a text can start a marker (`splitImportant?_append`). The text
in front and the marker make up the value as it was written, and a marker with blanks behind it
keeps being one.
-/

namespace Stylesheet

open Text

variable {cs front keyword value marker : List Char}

theorem bne_mark_of_mem_reverse (h : '!' ∉ cs) : ∀ c ∈ cs.reverse, (c != '!') = true := by
  intro c hc
  have hne : c ≠ '!' := fun heq ↦ h (heq ▸ List.mem_reverse.mp hc)
  simpa using hne

theorem splitImportant?_of_notMem (h : '!' ∉ cs) : splitImportant? cs = none := by
  have hnone : (cs.reverse ++ []).dropWhile (· != '!') = [] :=
    List.dropWhile_append_of_pos (bne_mark_of_mem_reverse h)
  rw [List.append_nil] at hnone
  simp [splitImportant?, hnone]

theorem splitImportant?_append (h : '!' ∉ keyword) :
    splitImportant? (front ++ '!' :: keyword) =
      if isImportant (dropLeadingBlanks keyword) then
        some (dropTrailingBlanks front, trailingBlanks front ++ '!' :: keyword)
      else none := by
  have hplain := bne_mark_of_mem_reverse h
  have hreverse : (front ++ '!' :: keyword).reverse = keyword.reverse ++ '!' :: front.reverse := by
    simp
  unfold splitImportant?
  rw [hreverse, List.takeWhile_append_of_pos hplain, List.dropWhile_append_of_pos hplain]
  simp

/-- Where there is a marker, it starts at the last exclamation mark. -/
theorem exists_of_splitImportant? (h : splitImportant? cs = some (value, marker)) :
    ∃ front keyword : List Char, cs = front ++ '!' :: keyword ∧ '!' ∉ keyword ∧
      isImportant (dropLeadingBlanks keyword) = true ∧ value = dropTrailingBlanks front ∧
      marker = trailingBlanks front ++ '!' :: keyword := by
  have hmem : '!' ∈ cs := by
    by_cases hmem : '!' ∈ cs
    · exact hmem
    · rw [splitImportant?_of_notMem hmem] at h
      contradiction
  obtain ⟨back, front, hcs, hback⟩ := List.eq_append_cons_of_mem (List.mem_reverse.mpr hmem)
  have hsplit : cs = front.reverse ++ '!' :: back.reverse := by
    rw [← List.reverse_reverse cs, hcs]
    simp
  have hkeyword : '!' ∉ back.reverse := by simpa using hback
  rw [hsplit, splitImportant?_append hkeyword] at h
  split at h
  · next himportant =>
    obtain ⟨rfl, rfl⟩ := Prod.mk.inj (Option.some.inj h)
    exact ⟨front.reverse, back.reverse, hsplit, hkeyword, himportant, rfl, rfl⟩
  · contradiction

theorem append_of_splitImportant? (h : splitImportant? cs = some (value, marker)) :
    value ++ marker = cs := by
  obtain ⟨front, keyword, rfl, _, _, rfl, rfl⟩ := exists_of_splitImportant? h
  rw [← List.append_assoc, drop_append_trailingBlanks]

/-- The keyword ends with a letter. -/
theorem trimmedEnd_of_isImportant (h : isImportant (dropLeadingBlanks keyword) = true) :
    TrimmedEnd keyword ∧ keyword ≠ [] := by
  have hne : dropLeadingBlanks keyword ≠ [] := by
    intro hnil
    rw [hnil] at h
    contradiction
  have htrimmed : TrimmedEnd (dropLeadingBlanks keyword) := by
    intro c hc
    have hlast : ((dropLeadingBlanks keyword).map Char.toLower).getLast? = some 't' := by
      rw [eq_of_beq h]
      rfl
    rw [List.getLast?_map, hc, Option.map_some, Option.some.injEq] at hlast
    cases hblank : isBlank c with
    | false => rfl
    | true =>
      simp only [isBlank, Bool.or_eq_true, beq_iff_eq] at hblank
      rcases hblank with (((rfl | rfl) | rfl) | rfl) | rfl <;> contradiction
  have hend : TrimmedEnd (leadingBlanks keyword ++ dropLeadingBlanks keyword) :=
    trimmedEnd_append htrimmed hne
  rw [leadingBlanks_append_drop] at hend
  refine ⟨hend, ?_⟩
  rintro rfl
  exact hne rfl

theorem trimmedEnd_marker (h : splitImportant? cs = some (value, marker)) : TrimmedEnd marker := by
  obtain ⟨front, keyword, _, -, himportant, _, rfl⟩ := exists_of_splitImportant? h
  obtain ⟨htrimmed, hne⟩ := trimmedEnd_of_isImportant himportant
  rw [show trailingBlanks front ++ '!' :: keyword = (trailingBlanks front ++ ['!']) ++ keyword by
    simp]
  exact trimmedEnd_append htrimmed hne

/-- A marker is found again when it stands alone, with blanks behind it or without. -/
theorem splitImportant?_marker_append_blanks (h : splitImportant? cs = some (value, marker))
    {blanks : List Char} (hblanks : ∀ c ∈ blanks, isBlank c = true) :
    (splitImportant? (dropTrailingBlanks (marker ++ blanks))).isSome = true := by
  have hmark := trimmedEnd_marker h
  obtain ⟨front, keyword, _, hkeyword, himportant, _, rfl⟩ := exists_of_splitImportant? h
  rw [dropTrailingBlanks_append hmark hblanks, splitImportant?_append hkeyword, if_pos himportant]
  rfl

theorem splitImportant?_blanks (hcs : ∀ c ∈ cs, isBlank c = true) :
    splitImportant? (dropTrailingBlanks cs) = none := by
  have hempty : dropTrailingBlanks cs = [] := dropTrailingBlanks_append trimmedEnd_nil hcs
  rw [hempty]
  rfl

end Stylesheet
