import Stylesheet.Proofs.Parse.Fields

/-!
# Values as they are written

What is written behind a colon is a value, a marker if there is one, and blanks (`Value.read`). The
three make up the text (`Value.text_append_ending`). A declaration is cut from its tokens in this
way (`Declaration.exists_of_ofTokens?`).

If the flag of a declaration is set afterwards, what is printed behind the colon is read as the same
value, important or not as the flag says (`Declaration.Holds.read_flagged`). A value that has a
marker of its own is the exception: it stays important.
-/

namespace Stylesheet

open Text

/-- A value with what is told apart at its end. -/
structure Value where
  text : List Char
  marker : Option (List Char)
  blanks : List Char
  deriving DecidableEq

namespace Value

/-- The blanks at the end are told apart first, and then the marker. -/
def read (written : List Char) : Value :=
  match splitImportant? (dropTrailingBlanks written) with
  | some (text, marker) => ⟨text, some marker, trailingBlanks written⟩
  | none => ⟨dropTrailingBlanks written, none, trailingBlanks written⟩

/-- All that stands behind the value. -/
def ending (v : Value) : List Char :=
  v.marker.getD [] ++ v.blanks

variable {written text marker : List Char}

theorem read_of_none (h : splitImportant? (dropTrailingBlanks written) = none) :
    read written = ⟨dropTrailingBlanks written, none, trailingBlanks written⟩ := by
  rw [read, h]

theorem read_of_some (h : splitImportant? (dropTrailingBlanks written) = some (text, marker)) :
    read written = ⟨text, some marker, trailingBlanks written⟩ := by
  rw [read, h]

@[simp]
theorem blanks_read (written : List Char) : (read written).blanks = trailingBlanks written := by
  unfold read
  split <;> rfl

theorem text_append_ending (written : List Char) :
    (read written).text ++ (read written).ending = written := by
  cases h : splitImportant? (dropTrailingBlanks written) with
  | none =>
    rw [read_of_none h]
    exact drop_append_trailingBlanks written
  | some parts =>
    rw [read_of_some h, ending, ← List.append_assoc]
    have hparts := append_of_splitImportant? h
    exact (congrArg (· ++ _) hparts).trans (drop_append_trailingBlanks written)

theorem trimmedEnd_text (written : List Char) : TrimmedEnd (read written).text := by
  cases h : splitImportant? (dropTrailingBlanks written) with
  | none =>
    rw [read_of_none h]
    exact trimmedEnd_drop written
  | some parts =>
    obtain ⟨front, -, -, -, -, htext, -⟩ := exists_of_splitImportant? h
    rw [read_of_some h, htext]
    exact trimmedEnd_drop front

theorem read_append {cs blanks : List Char} (hcs : TrimmedEnd cs) (hblanks : Blanks blanks) :
    read (cs ++ blanks) =
      match splitImportant? cs with
      | some (text, marker) => ⟨text, some marker, blanks⟩
      | none => ⟨cs, none, blanks⟩ := by
  rw [read, dropTrailingBlanks_append hcs hblanks, trailingBlanks_append hcs hblanks]

/-- A marker ends with a letter, so the blanks behind it are told apart again. -/
theorem trailingBlanks_ending (written : List Char) :
    trailingBlanks (read written).ending = (read written).blanks := by
  have hblanks : Blanks (trailingBlanks written) := fun c ↦ isBlank_of_mem_trailingBlanks
  cases h : splitImportant? (dropTrailingBlanks written) with
  | none =>
    rw [read_of_none h]
    have hnone : trailingBlanks ([] ++ trailingBlanks written) = trailingBlanks written :=
      trailingBlanks_append trimmedEnd_nil hblanks
    exact hnone
  | some parts =>
    rw [read_of_some h]
    exact trailingBlanks_append (trimmedEnd_marker h) hblanks

theorem isSome_marker_ending (written : List Char) :
    (splitImportant? (dropTrailingBlanks (read written).ending)).isSome =
      (read written).marker.isSome := by
  have hblanks : Blanks (trailingBlanks written) := fun c ↦ isBlank_of_mem_trailingBlanks
  cases h : splitImportant? (dropTrailingBlanks written) with
  | none =>
    rw [read_of_none h]
    exact congrArg Option.isSome (splitImportant?_blanks hblanks)
  | some parts =>
    rw [read_of_some h]
    exact splitImportant?_marker_append_blanks h hblanks

end Value

/-- The declaration has the value, and what is told apart behind it. -/
structure Declaration.Holds (d : Declaration) (v : Value) : Prop where
  value : d.value.toList = v.text
  important : d.important = v.marker.isSome
  after : d.after.toList = v.ending

theorem Declaration.holds_read_split {before prop between : String} (written : List Char) :
    let marked := splitImportant? (dropTrailingBlanks written)
    let split := marked.getD (dropTrailingBlanks written, [])
    Declaration.Holds
      { before, prop, between, value := String.ofList split.1, important := marked.isSome
        after := String.ofList (split.2 ++ trailingBlanks written) } (Value.read written) := by
  cases h : splitImportant? (dropTrailingBlanks written) with
  | none =>
    rw [Value.read_of_none h]
    exact ⟨String.toList_ofList, rfl, String.toList_ofList⟩
  | some parts =>
    rw [Value.read_of_some h]
    exact ⟨String.toList_ofList, rfl, String.toList_ofList⟩

/-- The first colon ends the property, and white space around the colon belongs to it. -/
theorem Declaration.exists_of_ofTokens? {before : String} {ts : List Token} {d : Declaration}
    (h : Declaration.ofTokens? before ts = some d) :
    ∃ front colon behind, ts = front ++ colon :: behind ∧ colon.kind = .colon ∧
      d.before = before ∧ d.prop = keptText (splitTrailingSpace front).1 ∧
      d.between = keptText ((splitTrailingSpace front).2 ++ colon :: (splitLeadingSpace behind).1) ∧
      d.Holds (Value.read (keptText (splitLeadingSpace behind).2).toList) := by
  have hsplit : ts.takeWhile (·.kind ≠ .colon) ++ ts.dropWhile (·.kind ≠ .colon) = ts :=
    List.takeWhile_append_dropWhile
  have hstop := List.head?_dropWhile_not (fun t : Token ↦ t.kind ≠ .colon) ts
  unfold Declaration.ofTokens? at h
  split at h
  · contradiction
  · next colon behind hbehind =>
    rw [hbehind] at hsplit hstop
    refine ⟨_, colon, behind, hsplit.symm, by simpa using hstop, ?_⟩
    obtain rfl := Option.some.inj h
    refine ⟨rfl, rfl, rfl, ?_⟩
    exact Declaration.holds_read_split (keptText (splitLeadingSpace behind).2).toList

theorem Declaration.holds_ofProperty (before : String) (ts : List Token) :
    (Declaration.ofProperty before ts).Holds (Value.read []) :=
  ⟨rfl, rfl, rfl⟩

/-! ## Setting the flag -/

namespace Declaration.Holds

variable {d : Declaration} {written : List Char}

/-- What is printed behind the value, if the flag is what it was and if it is not. -/
theorem ending_flagged (h : d.Holds (Value.read written)) (b : Bool) :
    { d with important := b }.ending =
      if b = d.important then d.after
      else if b then " !important" ++ d.after
      else String.ofList (Value.read written).blanks := by
  unfold Declaration.ending
  simp only [h.after, Value.isSome_marker_ending, ← h.important, Value.trailingBlanks_ending]

theorem value_append_after (h : d.Holds (Value.read written)) :
    (d.value ++ d.after).toList = written := by
  rw [String.toList_append, h.value, h.after, Value.text_append_ending]

theorem trailingBlanks_after (h : d.Holds (Value.read written)) :
    trailingBlanks d.after.toList = (Value.read written).blanks := by
  rw [h.after, Value.trailingBlanks_ending]

/-- Without a marker the value is all that is written, save the blanks at the end. -/
theorem after_eq_blanks (h : d.Holds (Value.read written)) (hplain : d.important = false) :
    d.after.toList = (Value.read written).blanks := by
  rw [h.important, Option.isSome_eq_false_iff, Option.isNone_iff_eq_none] at hplain
  rw [h.after, Value.ending, hplain]
  rfl

/-- The value is read again as it was, and with the importance that the flag says. -/
theorem read_flagged (h : d.Holds (Value.read written)) {b : Bool}
    (hb : b = true ∨ splitImportant? d.value.toList = none) :
    let v := Value.read (d.value ++ { d with important := b }.ending).toList
    v.text = d.value.toList ∧ v.marker.isSome = b ∧ v.blanks = trailingBlanks d.after.toList := by
  have hvalue : TrimmedEnd d.value.toList := h.value ▸ Value.trimmedEnd_text written
  have hblanks : Blanks (Value.read written).blanks := by
    rw [Value.blanks_read]
    exact fun c ↦ isBlank_of_mem_trailingBlanks
  rw [h.ending_flagged, h.trailingBlanks_after]
  dsimp only
  by_cases hsame : b = d.important
  · rw [if_pos hsame, h.value_append_after, hsame, h.important]
    exact ⟨h.value.symm, rfl, rfl⟩
  rw [if_neg hsame]
  cases b with
  | true =>
    have hplain : d.important = false := eq_false_of_ne_true (Ne.symm hsame)
    have hmarked : splitImportant? (d.value.toList ++ " !important".toList) =
        some (d.value.toList, " !important".toList) := by
      have hfront : d.value.toList ++ " !important".toList =
          (d.value.toList ++ [' ']) ++ '!' :: "important".toList := by simp
      have hspace : Blanks [' '] := by simp [Blanks, isBlank]
      rw [hfront, splitImportant?_append (by decide), if_pos (by decide),
        dropTrailingBlanks_append hvalue hspace, trailingBlanks_append hvalue hspace]
      rfl
    have hmarker : TrimmedEnd " !important".toList := by
      intro c hc
      obtain rfl := Option.some.inj hc
      rfl
    have htrimmed : TrimmedEnd (d.value.toList ++ " !important".toList) :=
      trimmedEnd_append hmarker (by decide)
    have hread := Value.read_append htrimmed hblanks
    rw [hmarked] at hread
    rw [if_pos rfl, String.toList_append, String.toList_append, h.after_eq_blanks hplain,
      ← List.append_assoc, hread]
    exact ⟨rfl, rfl, rfl⟩
  | false =>
    have hread := Value.read_append hvalue hblanks
    rw [hb.resolve_left Bool.false_ne_true] at hread
    rw [if_neg Bool.false_ne_true, String.toList_append, String.toList_ofList, hread]
    exact ⟨rfl, rfl, rfl⟩

end Declaration.Holds

end Stylesheet
