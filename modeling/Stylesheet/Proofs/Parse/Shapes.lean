import Stylesheet.Proofs.Parse.Origins
import Stylesheet.Proofs.Parse.Value
import Stylesheet.Proofs.Parse.Written
import Stylesheet.Proofs.Token.Units

/-!
# The shapes of fields

The fields of a node have their shapes, whatever the text (`Opening.Shaped`): those for white space
have nothing else in them, and the others do not start with white space. This rests on the tokens a
node is read from (`Opening.ReadFrom.shaped`). One token of white space is told apart at either end,
there are never two of them side by side, and no other token starts with a blank.
-/

namespace Stylesheet

open Text Piece

/-! ## Shapes -/

/-- A colon with white space around it. -/
def IsColon (cs : List Char) : Prop :=
  ∃ front back, cs = front ++ ':' :: back ∧ Blanks front ∧ Blanks back

/-- A marker of important values, with white space in front of it, inside and behind. -/
def IsMarker (cs : List Char) : Prop :=
  ∃ front inner keyword back, cs = front ++ '!' :: inner ++ keyword ++ back ∧ Blanks front ∧
    Blanks inner ∧ keyword.map Char.toLower = "important".toList ∧ Blanks back

structure Prelude.Shaped (p : Prelude) : Prop where
  afterName : Blanks p.afterName.toList
  params : TrimmedStart p.params.toList
  between : Blanks p.between.toList

structure Selector.Shaped (s : Selector) : Prop where
  selector : TrimmedStart s.selector.toList
  between : Blanks s.between.toList

/-- Without a colon there is neither a value nor anything behind it. -/
structure Declaration.Shaped (d : Declaration) : Prop where
  between : IsColon d.between.toList ∨ d.between = "" ∧ d.value = "" ∧ d.after = ""
  value : TrimmedStart d.value.toList ∧ TrimmedEnd d.value.toList
  after : if d.important then IsMarker d.after.toList else Blanks d.after.toList

structure Comment.Shaped (c : Comment) : Prop where
  left : Blanks c.left.toList
  right : Blanks c.right.toList
  text : TrimmedStart c.text.toList ∧ TrimmedEnd c.text.toList
  right_empty : c.text = "" → c.right = ""
  inner : ¬"*/".toList <:+: (c.left ++ c.text ++ c.right).toList

def Opening.Shaped : Opening → Prop
  | leaf (.declaration d) => d.Shaped
  | leaf (.comment c) => c.Shaped
  | leaf (.statement p) => p.Shaped
  | block (.rule s) => s.Shaped
  | block (.atRule p _) => p.Shaped

/-! ## White space between tokens -/

section

variable {ts : List Token} {t : Token} {behind : List Char}

theorem blanks_of_chained (h : Chained (ts.map Token.piece) behind) :
    ∀ t ∈ ts, t.kind = .space → Blanks t.text.toList := by
  intro t ht hspace
  obtain ⟨front, back, rfl⟩ := List.append_of_mem ht
  rw [List.map_append, chained_append] at h
  exact h.2.1.isBlank_of_space hspace

theorem blanks_keptText (h : ∀ t ∈ ts, t.kind = .space ∧ Blanks t.text.toList) :
    Blanks (keptText ts).toList := by
  induction ts with
  | nil => exact fun c hc ↦ nomatch hc
  | cons t ts ih =>
    obtain ⟨⟨hkind, ht⟩, hts⟩ := List.forall_mem_cons.mp h
    rw [keptText_cons, Token.kept_of_kind_ne (by simp [hkind]), String.toList_append]
    exact blanks_append_iff.mpr ⟨ht, ih hts⟩

/-- Only white space starts with a blank. -/
theorem trimmedStart_keptText (h : Chained (ts.map Token.piece) behind)
    (hfirst : ∀ t ∈ ts.head?, t.kind ≠ .space) : TrimmedStart (keptText ts).toList := by
  cases ts with
  | nil => exact trimmedStart_nil
  | cons t ts =>
    have hkept : ∃ later, (keptText (t :: ts)).toList = t.piece.text ++ later := by
      rw [keptText_cons, Token.kept]
      split <;> simp [Token.piece]
    obtain ⟨later, hlater⟩ := hkept
    rw [hlater]
    exact h.1.head?_append (hfirst t rfl) later

theorem mem_splitTrailingSpace (ts : List Token) :
    ∀ t ∈ (splitTrailingSpace ts).2, t ∈ ts ∧ t.kind = .space := by
  intro t ht
  obtain ⟨hsplit, -⟩ | ⟨front, u, rfl, hspace, hsplit⟩ := splitTrailingSpace_cases ts
  · simp [hsplit] at ht
  · rw [hsplit, List.mem_singleton] at ht
    subst ht
    exact ⟨List.mem_append_right _ List.mem_cons_self, hspace⟩

theorem mem_head?_splitTrailingSpace (ts : List Token) :
    ∀ t ∈ (splitTrailingSpace ts).1.head?, t ∈ ts.head? := by
  intro t ht
  rw [← splitTrailingSpace_append ts, List.head?_append, Option.mem_def.mp ht]
  rfl

theorem mem_splitLeadingSpace (ts : List Token) :
    ∀ t ∈ (splitLeadingSpace ts).1, t ∈ ts ∧ t.kind = .space := by
  intro t ht
  cases ts with
  | nil => simp [splitLeadingSpace] at ht
  | cons u ts =>
    by_cases hspace : u.kind = .space
    · rw [splitLeadingSpace, if_pos hspace] at ht
      obtain rfl := List.mem_singleton.mp ht
      exact ⟨List.mem_cons_self, hspace⟩
    · rw [splitLeadingSpace, if_neg hspace] at ht
      exact absurd ht List.not_mem_nil

/-- Behind white space that is told apart at the start there is no more of it. -/
theorem head?_splitLeadingSpace (h : Chained (ts.map Token.piece) behind) :
    ∀ t ∈ (splitLeadingSpace ts).2.head?, t.kind ≠ .space := by
  intro t ht
  cases ts with
  | nil => simp [splitLeadingSpace] at ht
  | cons u ts =>
    by_cases hspace : u.kind = .space
    · rw [splitLeadingSpace, if_pos hspace] at ht
      obtain ⟨more, rfl⟩ := List.head?_eq_some_iff.mp ht
      intro hkind
      have hpair : Chained (([] ++ [u, t]).map Token.piece)
          (join (more.map Token.piece) ++ behind) := (chained_append.mp h).1
      exact not_space_of_chained hpair hkind hspace
    · rw [splitLeadingSpace, if_neg hspace] at ht
      obtain rfl := Option.some.inj ht
      exact hspace

theorem chained_splitLeadingSpace (h : Chained (ts.map Token.piece) behind) :
    Chained ((splitLeadingSpace ts).2.map Token.piece) behind := by
  rw [← splitLeadingSpace_append ts, List.map_append, chained_append] at h
  exact h.2

theorem blanks_splitTrailingSpace (h : Chained (ts.map Token.piece) behind) :
    Blanks (keptText (splitTrailingSpace ts).2).toList :=
  blanks_keptText fun t ht ↦
    have ⟨hmem, hspace⟩ := mem_splitTrailingSpace ts t ht
    ⟨hspace, blanks_of_chained h t hmem hspace⟩

theorem blanks_splitLeadingSpace (h : Chained (ts.map Token.piece) behind) :
    Blanks (keptText (splitLeadingSpace ts).1).toList :=
  blanks_keptText fun t ht ↦
    have ⟨hmem, hspace⟩ := mem_splitLeadingSpace ts t ht
    ⟨hspace, blanks_of_chained h t hmem hspace⟩

theorem trimmedStart_splitTrailingSpace (h : Chained (ts.map Token.piece) behind)
    (hfirst : ∀ t ∈ ts.head?, t.kind ≠ .space) :
    TrimmedStart (keptText (splitTrailingSpace ts).1).toList := by
  have hsplit : Chained ((splitTrailingSpace ts).1.map Token.piece)
      (join ((splitTrailingSpace ts).2.map Token.piece) ++ behind) := by
    rw [← splitTrailingSpace_append ts, List.map_append, chained_append] at h
    exact h.1
  exact trimmedStart_keptText hsplit fun t ht ↦ hfirst t (mem_head?_splitTrailingSpace ts t ht)

/-! ## Heads and at-rules -/

theorem Prelude.shaped_ofTokens (before : String)
    (h : Chained ((t :: ts).map Token.piece) behind) : (Prelude.ofTokens before t ts).Shaped where
  afterName := blanks_splitLeadingSpace h.2
  params := trimmedStart_splitTrailingSpace (chained_splitLeadingSpace h.2)
    (head?_splitLeadingSpace h.2)
  between := blanks_splitTrailingSpace (chained_splitLeadingSpace h.2)

theorem Selector.shaped_ofTokens (before : String) (h : Chained (ts.map Token.piece) behind)
    (hfirst : ∀ t ∈ ts.head?, t.kind ≠ .space) : (Selector.ofTokens before ts).Shaped where
  selector := trimmedStart_splitTrailingSpace h hfirst
  between := blanks_splitTrailingSpace h

/-! ## Declarations -/

/-- A marker is one in any case, with white space inside or without. -/
theorem isMarker_of_splitImportant? {cs value marker blanks : List Char}
    (h : splitImportant? cs = some (value, marker)) (hblanks : Blanks blanks) :
    IsMarker (marker ++ blanks) := by
  obtain ⟨front, keyword, -, -, himportant, -, rfl⟩ := exists_of_splitImportant? h
  refine ⟨trailingBlanks front, leadingBlanks keyword, dropLeadingBlanks keyword, blanks, ?_,
    fun c ↦ isBlank_of_mem_trailingBlanks, fun c ↦ isBlank_of_mem_leadingBlanks,
    eq_of_beq himportant, hblanks⟩
  simp [leadingBlanks_append_drop]

theorem Value.ending_read (written : List Char) :
    if (read written).marker.isSome then IsMarker (read written).ending
    else Blanks (read written).ending := by
  have hblanks : Blanks (trailingBlanks written) := fun c ↦ isBlank_of_mem_trailingBlanks
  cases h : splitImportant? (dropTrailingBlanks written) with
  | none =>
    rw [read_of_none h]
    exact hblanks
  | some parts =>
    rw [read_of_some h]
    exact isMarker_of_splitImportant? h hblanks

theorem Declaration.shaped_ofTokens? {before : String} {d : Declaration}
    (hd : Declaration.ofTokens? before ts = some d) (hts : ∀ t ∈ ts, t.Shaped)
    (h : Chained (ts.map Token.piece) behind) : d.Shaped := by
  obtain ⟨front, colon, later, rfl, hkind, -, -, hbetween, hvalue, himportant, hafter⟩ :=
    Declaration.exists_of_ofTokens? hd
  have hcolon : colon.kept.toList = [':'] := by
    have htext := (hts colon (by simp)).single ':' (by rw [hkind]; rfl)
    rw [Token.kept_of_kind_ne (by simp [hkind]), htext, String.toList_ofList]
  rw [List.map_append, chained_append] at h
  obtain ⟨hfront, -, hlater⟩ := h
  let written := (keptText (splitLeadingSpace later).2).toList
  have hstart : TrimmedStart ((Value.read written).text ++ (Value.read written).ending) := by
    rw [Value.text_append_ending]
    exact trimmedStart_keptText (chained_splitLeadingSpace hlater) (head?_splitLeadingSpace hlater)
  refine ⟨.inl ?_, ?_, ?_⟩
  · refine ⟨_, _, ?_, blanks_splitTrailingSpace hfront, blanks_splitLeadingSpace hlater⟩
    rw [hbetween, keptText_append, keptText_cons, String.toList_append, String.toList_append,
      hcolon]
    rfl
  · rw [hvalue]
    exact ⟨hstart.of_append, Value.trimmedEnd_text written⟩
  · rw [himportant, hafter]
    exact Value.ending_read written

theorem Declaration.shaped_ofProperty (before : String) (ts : List Token) :
    (Declaration.ofProperty before ts).Shaped where
  between := .inr ⟨rfl, rfl, rfl⟩
  value := ⟨trimmedStart_nil, trimmedEnd_nil⟩
  after := fun _ h ↦ nomatch h

/-! ## Comments -/

theorem Comment.shaped_ofToken (before : String) (h : t.piece.Leads behind)
    (hkind : t.kind = .comment) : (Comment.ofToken before t).Shaped := by
  obtain ⟨inner, hinner, hplain⟩ := h.exists_inner hkind
  have hcontent : Comment.content t = inner := by
    apply Comment.content_eq
    rw [← String.toList_inj, String.toList_ofList]
    cases hunclosed : t.unclosed <;> simpa [Token.piece, hunclosed] using hinner
  have hstart := trimmedStart_drop inner
  refine ⟨?_, ?_, ?_, ?_, ?_⟩ <;>
    simp only [Comment.ofToken, hcontent, String.toList_ofList, String.toList_append]
  · exact fun c ↦ isBlank_of_mem_leadingBlanks
  · exact fun c ↦ isBlank_of_mem_trailingBlanks
  · exact ⟨hstart.dropTrailingBlanks, trimmedEnd_drop _⟩
  · intro hempty
    rw [hstart.eq_nil (String.ofList_eq_empty_iff.mp hempty)]
    rfl
  · rwa [List.append_assoc, drop_append_trailingBlanks, leadingBlanks_append_drop]

end

/-! ## Nodes -/

theorem Opening.ReadFrom.shaped {opening : Opening} {ts : List Token} {behind : List Char}
    (h : opening.ReadFrom ts) (hts : ∀ t ∈ ts, t.Shaped)
    (hchained : Chained (ts.map Token.piece) behind) : opening.Shaped := by
  cases h with
  | comment hkind => exact Comment.shaped_ofToken _ hchained.1 hkind
  | declaration hd => exact Declaration.shaped_ofTokens? hd hts hchained
  | property => exact Declaration.shaped_ofProperty _ _
  | statement => exact Prelude.shaped_ofTokens _ hchained
  | rule hfirst => exact Selector.shaped_ofTokens _ hchained hfirst
  | atRule => exact Prelude.shaped_ofTokens _ hchained

open Parse in
theorem shaped_place_of_parse {options : Options} {text : String} {tree : Tree}
    (h : parse options text = .ok tree) (place : Place) (hplace : place ∈ tree.places) :
    place.opening.Shaped := by
  obtain ⟨before, ts, behind, hts, -, hfrom⟩ := readIn_of_parse h place hplace
  have hchained := (chained_tokenize text).1
  rw [hts, List.map_append, List.map_append, chained_append, chained_append] at hchained
  refine hfrom.shaped (fun t ht ↦ shaped_of_mem_tokenize text t ?_) hchained.1.2
  rw [hts]
  exact List.mem_append_left _ (List.mem_append_right _ ht)

end Stylesheet
