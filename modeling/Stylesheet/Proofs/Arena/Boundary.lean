import Stylesheet.Proofs.Arena.Standing
import Stylesheet.Proofs.Parse.Shapes
import Stylesheet.Proofs.Token.Units

/-!
# Where values end

The end of a value is found in its text, not among its tokens. Mostly that makes no difference, but
there are two ways in which it cuts a unit of the text (`cutsUnit_of_parse`). The blanks or the
exclamation mark behind the value can be escaped, as the value then shows by ending with the
backslash, and they can be inside of a string that runs to the end of the text.
-/

namespace Stylesheet

open Text Piece

/-- There is no backslash, no quote and no slash behind a value. -/
theorem Value.plain_of_mem_ending (written : List Char) :
    ∀ c ∈ (read written).ending, c ≠ '\\' ∧ isQuote c = false ∧ c ≠ '/' := by
  have hblank {c : Char} (h : isBlank c = true) : c ≠ '\\' ∧ isQuote c = false ∧ c ≠ '/' := by
    simp only [isBlank, Bool.or_eq_true, beq_iff_eq] at h
    obtain (((rfl | rfl) | rfl) | rfl) | rfl := h <;> decide
  have hshape := Value.ending_read written
  intro c hc
  split at hshape
  · obtain ⟨front, inner, keyword, back, hall, hfront, hinner, hkeyword, hback⟩ := hshape
    rw [hall] at hc
    simp only [List.mem_append, List.mem_cons] at hc
    obtain ((hc | rfl | hc) | hc) | hc := hc
    · exact hblank (hfront c hc)
    · decide
    · exact hblank (hinner c hc)
    · have hletter := List.mem_map_of_mem (f := Char.toLower) hc
      rw [hkeyword] at hletter
      refine ⟨?_, ?_, ?_⟩
      · rintro rfl
        revert hletter
        decide
      · rw [← Bool.not_eq_true]
        intro hquote
        simp only [isQuote, Bool.or_eq_true, beq_iff_eq] at hquote
        obtain rfl | rfl := hquote <;> revert hletter <;> decide
      · rintro rfl
        revert hletter
        decide
    · exact hblank (hback c hc)
  · exact hblank (hshape c hc)

section

variable {text : String} {us vs ws : List Token} {t : Token}

/-- What is kept of tokens is their text, unless the last one is a comment without an end. -/
theorem toList_keptText_cases (hts : tokenize text = us ++ (ws ++ vs)) :
    ((keptText ws).toList = textOf ws ∧ ∀ t ∈ ws, t.kind = .comment → t.unclosed = false) ∨
      (keptText ws).toList = textOf ws ++ ['*', '/'] ∧ vs = [] := by
  induction ws generalizing us with
  | nil => exact .inl ⟨rfl, fun _ h ↦ nomatch h⟩
  | cons t ws ih =>
    have hlater := @ih (us ++ [t]) (by rw [hts]; simp)
    by_cases hopen : t.kind = .comment ∧ t.unclosed = true
    · obtain ⟨rfl, rfl⟩ := List.append_eq_nil_iff.mp (eq_nil_of_unclosed hts hopen.2)
      refine .inr ⟨?_, rfl⟩
      rw [keptText_cons, Token.kept, if_pos hopen]
      simp
    · have hkept : t.kept = t.text := by rw [Token.kept, if_neg hopen]
      rw [keptText_cons, hkept, String.toList_append, textOf_cons]
      refine hlater.imp ?_ ?_
      · rintro ⟨htext, hclosed⟩
        refine ⟨by rw [htext], List.forall_mem_cons.mpr ⟨fun hkind ↦ ?_, hclosed⟩⟩
        exact eq_false_of_ne_true fun hunclosed ↦ hopen ⟨hkind, hunclosed⟩
      · rintro ⟨htext, hvs⟩
        exact ⟨by rw [htext, List.append_assoc], hvs⟩

/-- Where anything stands behind the value, no comment is left open. -/
theorem textOf_of_ending_ne_nil (hts : tokenize text = us ++ (ws ++ vs))
    (hending : (Value.read (keptText ws).toList).ending ≠ []) :
    (keptText ws).toList = textOf ws ∧ ∀ t ∈ ws, t.kind = .comment → t.unclosed = false := by
  obtain hclosed | ⟨hopen, -⟩ := toList_keptText_cases hts
  · exact hclosed
  · obtain ⟨front, c, hlast⟩ := (List.eq_nil_or_concat _).resolve_left hending
    have hall := Value.text_append_ending (keptText ws).toList
    have hplain := Value.plain_of_mem_ending (keptText ws).toList c
    rw [hlast, List.concat_eq_append] at hall hplain
    rw [hopen, ← List.append_assoc, ← List.singleton_append (l := ['/']), ← List.append_assoc]
      at hall
    obtain ⟨-, hslash⟩ := List.append_inj' hall rfl
    exact absurd (List.cons.inj hslash).1 (hplain (by simp)).2.2

/-- A unit that is cut at the end of the value is one of the value's own tokens. -/
theorem exists_of_cutsUnit (hts : tokenize text = us ++ (ws ++ vs)) {value ending : List Char}
    (hkept : value ++ ending = (keptText ws).toList)
    (h : CutsUnit (tokenize text) (textOf us ++ value)) :
    ∃ ws' t behind xs ys, ws = ws' ++ t :: behind ∧ t.text.toList = xs ++ ys ∧ ys ≠ [] ∧
      value = textOf ws' ++ xs ∧ ys <+: ending ∧
      (t.kind = .string ∨ (t.kind = .word ∨ t.kind = .atWord) ∧ escapes xs = true) := by
  obtain ⟨before, t, behind, xs, ys, hall, htext, hxs, hys, hplace, hunit⟩ := h
  obtain ⟨ws', rfl, rfl⟩ := exists_append_of_inside (hts.symm.trans hall) htext hys hplace
  obtain ⟨more, hmore, hnone⟩ :
      ∃ more, (keptText ws).toList = textOf ws ++ more ∧ (more = [] ∨ vs = []) := by
    obtain ⟨hsame, -⟩ | ⟨hmore, hvs⟩ := toList_keptText_cases hts
    · exact ⟨[], by simpa using hsame, .inl rfl⟩
    · exact ⟨_, hmore, .inr hvs⟩
  rw [hmore] at hkept
  rw [hts, List.append_assoc, List.append_cancel_left_eq] at hall
  have hinside : ∃ inner, ws = ws' ++ t :: inner := by
    obtain ⟨later, rfl, hlater⟩ | ⟨inner, rfl, hinner⟩ := List.append_eq_append_iff.mp hall
    · have hvs : vs ≠ [] := hlater ▸ List.append_ne_nil_of_right_ne_nil _ (List.cons_ne_nil _ _)
      rw [hnone.resolve_right hvs, List.append_nil, textOf_append] at hkept
      simp [hxs] at hkept
    · cases inner with
      | nil =>
        have hvs : vs ≠ [] := by
          rw [List.nil_append] at hinner
          exact hinner ▸ List.cons_ne_nil _ _
        rw [hnone.resolve_right hvs, List.append_nil, List.append_nil] at hkept
        simp [hxs] at hkept
      | cons u inner =>
        obtain ⟨rfl, -⟩ := List.cons.inj hinner
        exact ⟨inner, rfl⟩
  obtain ⟨inner, rfl⟩ := hinside
  refine ⟨ws', t, inner, xs, ys, rfl, htext, hys, rfl, ?_, hunit⟩
  rw [textOf_append, textOf_cons, htext] at hkept
  simp only [List.append_assoc, List.append_cancel_left_eq] at hkept
  rw [hkept]
  exact List.prefix_append _ _

/-- The value ends with a backslash that escapes what is behind it, or inside of a string. -/
theorem cutsUnit_value (hts : tokenize text = us ++ (ws ++ vs)) {value ending : List Char}
    (hkept : value ++ ending = (keptText ws).toList)
    (hplain : ∀ c ∈ ending, c ≠ '\\' ∧ isQuote c = false ∧ c ≠ '/')
    (h : CutsUnit (tokenize text) (textOf us ++ value)) :
    ending ≠ [] ∧ (escapes value = true ∨
      vs = [] ∧ ∃ t ∈ ws.getLast?, t.kind = .string ∧ t.unclosed = true) := by
  obtain ⟨ws', t, behind, xs, ys, rfl, htext, hys, rfl, ⟨more, rfl⟩, hunit⟩ :=
    exists_of_cutsUnit hts hkept h
  have ht : tokenize text = (us ++ ws') ++ t :: (behind ++ vs) := by rw [hts]; simp
  refine ⟨List.append_ne_nil_of_left_ne_nil hys _, ?_⟩
  obtain hstring | ⟨-, hescapes⟩ := hunit
  · right
    obtain ⟨later, hleads, -⟩ := leads_of_tokenize ht
    obtain ⟨quote, inner, hquote, hquoted⟩ := hleads.exists_quote hstring
    have hopen : t.unclosed = true := by
      by_contra hclosed
      rw [Bool.not_eq_true] at hclosed
      have hend : t.text.toList = quote :: inner ++ [quote] := by
        simpa [Token.piece, hclosed] using hquoted
      obtain ⟨front, c, rfl⟩ := (List.eq_nil_or_concat ys).resolve_left hys
      rw [htext, List.concat_eq_append, ← List.append_assoc] at hend
      obtain ⟨-, hlast⟩ := List.append_inj' hend rfl
      obtain rfl := (List.cons.inj hlast).1
      have hother := (hplain c (by simp)).2.1
      exact absurd (hother.symm.trans hquote) Bool.false_ne_true
    obtain ⟨rfl, rfl⟩ := List.append_eq_nil_iff.mp (eq_nil_of_unclosed ht hopen)
    exact ⟨rfl, t, by simp, hstring, hopen⟩
  · left
    have happend : tokenize text = us ++ (ws' ++ t :: (behind ++ vs)) := by
      rw [ht, List.append_assoc]
    have hbefore : escapes (textOf ws') = false :=
      escapes_textOf happend (List.cons_ne_nil _ _)
    rwa [escapes_append hbefore]

theorem cutsUnit_of_escapes (hts : tokenize text = us ++ (ws ++ vs)) {value ending : List Char}
    (hkept : value ++ ending = textOf ws)
    (hclosed : ∀ t ∈ ws, t.kind = .comment → t.unclosed = false)
    (hplain : ∀ c ∈ ending, c ≠ '\\' ∧ isQuote c = false ∧ c ≠ '/') (hending : ending ≠ [])
    (hescapes : escapes value = true) : CutsUnit (tokenize text) (textOf us ++ value) := by
  obtain ⟨ws', behind, rfl, rfl⟩ | ⟨ws', t, behind, xs, ys, rfl, htext, hxs, hys, rfl⟩ :=
    exists_of_textOf_eq_append hkept.symm
  · rw [textOf_append, List.append_cancel_left_eq] at hkept
    have hbehind : behind ≠ [] := by
      rintro rfl
      exact hending hkept
    rw [List.append_assoc] at hts
    have hnone : escapes (textOf ws') = false :=
      escapes_textOf hts (List.append_ne_nil_of_left_ne_nil hbehind vs)
    exact absurd (hnone.symm.trans hescapes) Bool.false_ne_true
  · have ht : tokenize text = (us ++ ws') ++ t :: (behind ++ vs) := by rw [hts]; simp
    obtain ⟨later, hleads, -⟩ := leads_of_tokenize ht
    have happend : tokenize text = us ++ (ws' ++ t :: (behind ++ vs)) := by
      rw [ht, List.append_assoc]
    have hbefore : escapes (textOf ws') = false :=
      escapes_textOf happend (List.cons_ne_nil _ _)
    rw [escapes_append hbefore] at hescapes
    refine ⟨us ++ ws', t, behind ++ vs, xs, ys, ht, htext, hxs, hys, by simp, ?_⟩
    rw [textOf_append, textOf_cons, htext] at hkept
    simp only [List.append_assoc, List.append_cancel_left_eq] at hkept
    cases hkind : t.kind with
    | string => exact .inl rfl
    | word => exact .inr ⟨.inl rfl, hescapes⟩
    | atWord => exact .inr ⟨.inr rfl, hescapes⟩
    | space =>
      have hblank := hleads.isBlank_of_space hkind
      have hnone : escapes xs = false := by
        refine escapes_of_getLast?_ne fun c hc ↦ ?_
        rintro rfl
        have hmem : '\\' ∈ t.text.toList := by
          rw [htext]
          exact List.mem_append_left _ (List.mem_of_mem_getLast? hc)
        exact absurd (hblank _ hmem) Bool.false_ne_true
      exact absurd (hnone.symm.trans hescapes) Bool.false_ne_true
    | comment =>
      obtain ⟨inner, hinner, -⟩ := hleads.exists_inner hkind
      have hend : t.text.toList = '/' :: '*' :: inner ++ ['*'] ++ ['/'] := by
        simpa [Token.piece, hclosed t (by simp) hkind] using hinner
      obtain ⟨front, c, rfl⟩ := (List.eq_nil_or_concat ys).resolve_left hys
      rw [htext, List.concat_eq_append, ← List.append_assoc] at hend
      obtain ⟨-, hlast⟩ := List.append_inj' hend rfl
      exact absurd (List.cons.inj hlast).1 (hplain c (by rw [hkept]; simp)).2.2
    | openCurly | closeCurly | semicolon | colon | other =>
      have hone : t.text.toList.length = 1 := hleads.length_text (by simp [Token.piece, hkind])
      have hpos := List.length_pos_iff.mpr hxs
      have hpos' := List.length_pos_iff.mpr hys
      rw [htext, List.length_append] at hone
      omega

theorem cutsUnit_of_unclosed (hts : tokenize text = us ++ ws) {value ending : List Char}
    (hkept : value ++ ending = textOf ws)
    (hplain : ∀ c ∈ ending, c ≠ '\\' ∧ isQuote c = false ∧ c ≠ '/') (hending : ending ≠ [])
    (ht : t ∈ ws.getLast?) (hstring : t.kind = .string) :
    CutsUnit (tokenize text) (textOf us ++ value) := by
  obtain ⟨ws', rfl⟩ := List.getLast?_eq_some_iff.mp ht
  rw [← List.append_assoc] at hts
  obtain ⟨later, hleads, -⟩ := leads_of_tokenize hts
  obtain ⟨quote, inner, hquote, hquoted⟩ := hleads.exists_quote hstring
  have hmem : quote ∈ t.text.toList := by
    have hfirst : t.text.toList = quote :: (inner ++ _) := hquoted
    rw [hfirst]
    exact List.mem_cons_self
  have hnot : quote ∉ ending := fun hbehind ↦
    absurd ((hplain quote hbehind).2.1.symm.trans hquote) Bool.false_ne_true
  rw [textOf_append, textOf_cons, textOf_nil, List.append_nil] at hkept
  obtain ⟨more, -, rfl⟩ | ⟨xs, rfl, htext⟩ := List.append_eq_append_iff.mp hkept
  · exact absurd (List.mem_append_right _ hmem) hnot
  · have hxs : xs ≠ [] := by
      rintro rfl
      rw [htext, List.nil_append] at hmem
      exact hnot hmem
    exact ⟨us ++ ws', t, [], xs, ending, hts, htext, hxs, hending, by simp, .inl hstring⟩

theorem cutsUnit_value_iff (hts : tokenize text = us ++ (ws ++ vs)) :
    CutsUnit (tokenize text) (textOf us ++ (Value.read (keptText ws).toList).text) ↔
      (Value.read (keptText ws).toList).ending ≠ [] ∧
        (escapes (Value.read (keptText ws).toList).text = true ∨
          vs = [] ∧ ∃ t ∈ ws.getLast?, t.kind = .string ∧ t.unclosed = true) := by
  have hkept := Value.text_append_ending (keptText ws).toList
  have hplain := Value.plain_of_mem_ending (keptText ws).toList
  refine ⟨cutsUnit_value hts hkept hplain, ?_⟩
  rintro ⟨hending, hescapes | ⟨rfl, t, ht, hstring, -⟩⟩
  · obtain ⟨hsame, hclosed⟩ := textOf_of_ending_ne_nil hts hending
    exact cutsUnit_of_escapes hts (hkept.trans hsame) hclosed hplain hending hescapes
  · obtain ⟨hsame, -⟩ := textOf_of_ending_ne_nil hts hending
    rw [List.append_nil] at hts
    exact cutsUnit_of_unclosed hts (hkept.trans hsame) hplain hending ht hstring

theorem textOf_eq_nil_iff (hts : tokenize text = us ++ vs) : textOf vs = [] ↔ vs = [] := by
  constructor
  · intro hnil
    cases vs with
    | nil => rfl
    | cons t vs =>
      have hne : t.text ≠ "" := text_ne_empty_of_mem_tokenize (by rw [hts]; simp)
      rw [textOf_cons, List.append_eq_nil_iff] at hnil
      exact absurd (String.toList_eq_nil_iff.mp hnil.1) hne
  · rintro rfl
    rfl

/-! ## Declarations -/

/-- Up to its value a declaration has the text of its tokens. -/
theorem toList_front (hts : tokenize text = us ++ ws ++ vs) {before : String} {d : Declaration}
    (hd : Declaration.ofTokens? before ws = some d) :
    ∃ front written, ws = front ++ written ∧
      (d.prop ++ d.between).toList = textOf front ∧
      d.Holds (Value.read (keptText written).toList) := by
  obtain ⟨front, colon, behind, rfl, hcolon, -, hprop, hbetween, hholds⟩ :=
    Declaration.exists_of_ofTokens? hd
  refine ⟨front ++ colon :: (splitLeadingSpace behind).1, (splitLeadingSpace behind).2, ?_, ?_,
    hholds⟩
  · rw [List.append_assoc, List.cons_append, splitLeadingSpace_append]
  · have hkept : keptText (front ++ colon :: (splitLeadingSpace behind).1) =
        d.prop ++ d.between := by
      rw [hprop, hbetween, ← keptText_append, ← List.append_assoc, splitTrailingSpace_append]
    suffices hall : ∀ t ∈ front ++ colon :: (splitLeadingSpace behind).1, t.kept = t.text by
      rw [← hkept, keptText_of_kept hall, String.toList_ofList]
    intro t ht
    obtain hfront | hrest := List.mem_append.mp ht
    · obtain ⟨front', front'', rfl⟩ := List.append_of_mem hfront
      refine Token.kept_of_closed (eq_false_of_ne_true fun hopen ↦ ?_)
      have hall : tokenize text = (us ++ front') ++ t :: (front'' ++ colon :: behind ++ vs) := by
        rw [hts]
        simp
      exact absurd (eq_nil_of_unclosed hall hopen) (by simp)
    · refine Token.kept_of_kind_ne ?_
      obtain rfl | hspace := List.mem_cons.mp hrest
      · simp [hcolon]
      · simp [(mem_splitLeadingSpace behind t hspace).2]

end

/-- In a parsed text, the end of a declaration's value cuts a unit just in two cases, and in both
there is something told apart from the value. Either the value ends with a backslash that is not
escaped itself, or the declaration reaches the end of the text and the text ends in a string that is
not closed. -/
theorem cutsUnit_of_parse (options : Options) (text : String) (tree : Tree)
    (h : parse options text = .ok tree) (id : NodeId) (entry : Entry) (d : Declaration)
    (hentry : Arena.entry? (Arena.ofTree tree) id = some entry)
    (hd : entry.content = .leaf (.declaration d)) (front back : String)
    (hstands : (Arena.ofTree tree).Stands id front back) :
    CutsUnit (tokenize text) (front ++ d.before ++ d.prop ++ d.between ++ d.value).toList ↔
      d.after ≠ "" ∧ (escapes d.value.toList = true ∨
        front ++ d.before ++ d.prop ++ d.between ++ d.value ++ d.after = withoutMark text ∧
          ∃ t ∈ (tokenize text).getLast?, t.kind = .string ∧ t.unclosed = true) := by
  obtain ⟨place, hplace, -, hopening, -⟩ := Arena.exists_place_ofTree tree hentry
  obtain ⟨before, ts, behind, hts, hlead, hfrom⟩ :=
    readIn_of_parse h place (List.mem_of_getElem? hplace)
  have hbefore : (front ++ d.before).toList = textOf before := by
    rw [← hlead, Place.lead, hstands.front_eq hplace, ← hopening, Content.before_opening, hd]
    rfl
  rw [← hopening, hd] at hfrom
  cases hfrom with
  | @property lead =>
    constructor
    · intro hcut
      have hfront : (front ++ lead ++ keptText ts ++ "" ++ "").toList =
          textOf before ++ (keptText ts).toList := by
        rw [← hbefore]
        simp [Declaration.ofProperty]
      rw [Declaration.ofProperty, hfront] at hcut
      obtain ⟨-, -, -, -, ys, -, -, hys, -, hprefix, -⟩ :=
        exists_of_cutsUnit (by rw [hts, List.append_assoc]) (List.append_nil _) hcut
      exact absurd (List.prefix_nil.mp hprefix) hys
    · rintro ⟨hafter, -⟩
      exact absurd rfl hafter
  | declaration hread =>
    obtain ⟨head, written, rfl, hhead, hholds⟩ := toList_front hts hread
    have htokens : tokenize text = (before ++ head) ++ (written ++ behind) := by
      rw [hts]
      simp only [List.append_assoc]
    have hfront : (front ++ d.before ++ d.prop ++ d.between ++ d.value).toList =
        textOf (before ++ head) ++ (Value.read (keptText written).toList).text := by
      rw [textOf_append, ← hbefore, ← hhead, ← hholds.value]
      simp
    have hafter : d.after ≠ "" ↔ (Value.read (keptText written).toList).ending ≠ [] := by
      rw [← hholds.after, not_iff_not, String.toList_eq_nil_iff]
    rw [hfront, cutsUnit_value_iff htokens, hafter, hholds.value]
    refine and_congr_right fun hending ↦ or_congr_right ?_
    obtain ⟨hkept, -⟩ := textOf_of_ending_ne_nil htokens hending
    have hwritten : written ≠ [] := by
      rintro rfl
      exact hending rfl
    have happend : tokenize text = before ++ head ++ written ++ behind := by
      rw [htokens, List.append_assoc (before ++ head)]
    have hend : front ++ d.before ++ d.prop ++ d.between ++ d.value ++ d.after =
        withoutMark text ↔ behind = [] := by
      rw [← String.toList_inj, String.toList_append, hfront, hholds.after, List.append_assoc,
        Value.text_append_ending, hkept, ← toList_textOf_tokenize, String.toList_ofList, happend,
        ← textOf_append, textOf_append _ behind, List.self_eq_append_right]
      exact textOf_eq_nil_iff happend
    rw [hend]
    refine and_congr_right fun hbehind ↦ ?_
    rw [htokens, hbehind, List.append_nil, List.getLast?_append_of_ne_nil _ hwritten]

/-- A parsed text can be evaluated to see where one of its declarations stands. -/
theorem exists_declaration {options : Options} {text front : String} {id : NodeId}
    {d : Declaration}
    (h : ((parse options text).toOption.map fun tree ↦
        ((Arena.entry? (Arena.ofTree tree) id).map Entry.content,
          tree.places[id]?.map Place.front)) =
      some (some (.leaf (.declaration d)), some front)) :
    ∃ tree entry back, parse options text = .ok tree ∧
      Arena.entry? (Arena.ofTree tree) id = some entry ∧
      entry.content = .leaf (.declaration d) ∧ (Arena.ofTree tree).Stands id front back := by
  obtain ⟨tree, htree, hfound⟩ := exists_of_toOption h
  simp only [Prod.mk.injEq, Option.map_eq_some_iff] at hfound
  obtain ⟨⟨entry, hentry, hcontent⟩, place, hplace, hlead⟩ := hfound
  obtain ⟨front', back, hstands⟩ :=
    Arena.exists_stands tree id (Array.getElem?_eq_some_iff.mp hentry).1
  obtain rfl : front = front' := hlead.symm.trans (hstands.front_eq hplace)
  exact ⟨tree, entry, back, htree, hentry, hcontent, hstands⟩

/-- In a string that nothing closes, the marker is read as one. -/
theorem cutsUnit_of_parse_open_string :
    ∃ tree entry back, parse {} "a\x7bb:'c !important" = .ok tree ∧
      Arena.entry? (Arena.ofTree tree) 1 = some entry ∧
      entry.content = .leaf (.declaration ⟨"", "b", ":", "'c", true, " !important"⟩) ∧
      (Arena.ofTree tree).Stands 1 "a\x7b" back ∧
      CutsUnit (tokenize "a\x7bb:'c !important") "a\x7bb:'c".toList := by
  have hparse : ((parse {} "a\x7bb:'c !important").toOption.map fun tree ↦
      ((Arena.entry? (Arena.ofTree tree) 1).map Entry.content,
        tree.places[1]?.map Place.front)) =
      some (some (.leaf (.declaration ⟨"", "b", ":", "'c", true, " !important"⟩)),
        some "a\x7b") := by
    decide +kernel
  obtain ⟨tree, entry, back, htree, hentry, hd, hstands⟩ := exists_declaration hparse
  have hlast : ∃ t ∈ (tokenize "a\x7bb:'c !important").getLast?,
      t.kind = .string ∧ t.unclosed = true := by decide +kernel
  have hcuts := (cutsUnit_of_parse {} _ tree htree 1 entry _ hentry hd _ back hstands).mpr
    ⟨by decide, .inr ⟨by decide +kernel, hlast⟩⟩
  exact ⟨tree, entry, back, htree, hentry, hd, hstands, hcuts⟩

/-- An exclamation mark that is escaped starts a marker all the same. -/
theorem exists_cutsUnit_escaped :
    ∃ tree entry back, parse {} "a\x7bb:c\\!important\x7d" = .ok tree ∧
      Arena.entry? (Arena.ofTree tree) 1 = some entry ∧
      entry.content = .leaf (.declaration ⟨"", "b", ":", "c\\", true, "!important"⟩) ∧
      (Arena.ofTree tree).Stands 1 "a\x7b" back ∧
      CutsUnit (tokenize "a\x7bb:c\\!important\x7d") "a\x7bb:c\\".toList := by
  have hparse : ((parse {} "a\x7bb:c\\!important\x7d").toOption.map fun tree ↦
      ((Arena.entry? (Arena.ofTree tree) 1).map Entry.content,
        tree.places[1]?.map Place.front)) =
      some (some (.leaf (.declaration ⟨"", "b", ":", "c\\", true, "!important"⟩)),
        some "a\x7b") := by
    decide +kernel
  obtain ⟨tree, entry, back, htree, hentry, hd, hstands⟩ := exists_declaration hparse
  have hword : ∃ before t behind, tokenize "a\x7bb:c\\!important\x7d" = before ++ t :: behind ∧
      textOf before = "a\x7bb:".toList ∧ t.kind = .word ∧ t.text = "c\\!important" :=
    ⟨(tokenize "a\x7bb:c\\!important\x7d").take 4,
      (tokenize "a\x7bb:c\\!important\x7d").get ⟨4, by decide +kernel⟩,
      (tokenize "a\x7bb:c\\!important\x7d").drop 5,
      by decide +kernel, by decide +kernel, by decide +kernel, by decide +kernel⟩
  obtain ⟨before, t, behind, htokens, hbefore, hkind, htext⟩ := hword
  have hescapes : escapes "c\\".toList = true := by decide
  refine ⟨tree, entry, back, htree, hentry, hd, hstands, before, t, behind, "c\\".toList,
    "!important".toList, htokens, ?_, by decide, by decide, ?_, .inr ⟨.inl hkind, hescapes⟩⟩
  · rw [htext]
    decide
  · rw [hbefore]
    decide

end Stylesheet
