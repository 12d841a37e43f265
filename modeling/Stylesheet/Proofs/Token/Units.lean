import Stylesheet.Proofs.Token.Chain
import Stylesheet.Proofs.Token.Tiling

/-!
# Units of tokens

A string is one unit, and in a word or an at-word a backslash and the character that it escapes are.
A place in the text can be inside of a unit (`CutsUnit`). No token in front of others ends with a
backslash that is not escaped itself (`Piece.Leads.escapes_text`), so whether a character is escaped
does not depend on the tokens in front of its own.
-/

namespace Stylesheet

open Text Piece

/-- Behind `front` the text goes on inside of a string, or with a character that is escaped. -/
def CutsUnit (ts : List Token) (front : List Char) : Prop :=
  ∃ before t behind xs ys, ts = before ++ t :: behind ∧ t.text.toList = xs ++ ys ∧ xs ≠ [] ∧
    ys ≠ [] ∧ front = textOf before ++ xs ∧
    (t.kind = .string ∨ (t.kind = .word ∨ t.kind = .atWord) ∧ escapes xs = true)

/-! ## Escapes at the end -/

section

variable {unit : Nat → List Char → Nat} {offset : Nat} {cs xs ys taken rest : List Char}

theorem Text.escapes_concat (cs : List Char) (c : Char) :
    escapes (cs ++ [c]) = (!escapes cs && c == '\\') := by
  rw [escapes, escapesFrom_append]
  rfl

theorem Text.escapes_of_getLast?_ne (h : ∀ c ∈ cs.getLast?, c ≠ '\\') : escapes cs = false := by
  obtain rfl | ⟨front, c, rfl⟩ := List.eq_nil_or_concat cs
  · rfl
  · rw [List.concat_eq_append] at h ⊢
    rw [escapes_concat]
    have hne := h c (by simp)
    simp [hne]

theorem Text.Cut.Munches.escapes_taken (h : Cut.Munches unit offset cs taken rest)
    (hescaping : Cut.Escaping unit) (hrest : rest ≠ []) : escapes taken = false := by
  induction h with
  | nothing | stop => rfl
  | next hxs hlength _ ih =>
    rw [escapes_append (hescaping.whole hxs hlength)]
    exact ih hrest
  | short => contradiction

/-- A quote that is found is the one that was looked for. -/
theorem Lexeme.head?_of_quotedUnit {quote c : Char} (h : quotedUnit quote (c :: cs) = 0) :
    c = quote := by
  rw [quotedUnit] at h
  split at h
  · contradiction
  · split at h
    · next hquote => exact hquote
    · contradiction

/-- A comment ends where it can, so its closing delimiter is not inside of it. -/
theorem Text.Cut.Munches.not_infix {offset : Nat} {cs taken rest : List Char}
    (h : Cut.Munches (fun _ ↦ Lexeme.commentUnit) offset cs taken rest) :
    ¬['*', '/'] <:+: taken := by
  induction h with
  | nothing | stop => simp
  | @next offset xs cs taken rest hxs hlength hnext ih =>
    obtain ⟨x, xs, rfl⟩ := List.exists_cons_of_ne_nil hxs
    have hone : xs = [] := by
      unfold Lexeme.commentUnit at hlength
      split at hlength
      · simp at hlength
      · simpa using hlength
    subst hone
    rw [List.singleton_append, List.infix_cons_iff]
    rintro (hstart | hinside)
    · obtain ⟨later, hlater⟩ := hstart
      have hstop : Lexeme.commentUnit ([x] ++ cs) = 0 := by
        rw [Lexeme.commentUnit_eq_zero_iff, ← hnext.append]
        exact ⟨later ++ rest, by rw [← List.append_assoc, List.singleton_append, ← hlater]; rfl⟩
      exact absurd (hstop.symm.trans hlength) (by simp)
    · exact ih hinside
  | @short offset cs hcs hshort =>
    have hle : Lexeme.commentUnit cs ≤ 1 := by
      unfold Lexeme.commentUnit
      split <;> omega
    have hpos := List.length_pos_iff.mpr hcs
    omega

end

namespace Piece.Leads

variable {p : Piece} {behind : List Char}

theorem exists_quote (h : p.Leads behind) (hkind : p.kind = .string) :
    ∃ quote inner, isQuote quote = true ∧
      p.text = quote :: inner ++ if p.closed then [quote] else [] := by
  obtain ⟨cs, -, lexeme, hread, rfl⟩ := h
  cases hread with
  | @string c cs quote =>
    have hmunch := Cut.munches_munch (fun _ ↦ Lexeme.quotedUnit c) 0 cs
    obtain ⟨htaken, -, hclosed⟩ := Lexeme.quoted_eq (c := c) hmunch
    refine ⟨c, (Cut.munch (fun _ ↦ Lexeme.quotedUnit c) 0 cs).taken, quote, ?_⟩
    simp only [Lexeme.piece, htaken, hclosed]
    cases hrest : (Cut.munch (fun _ ↦ Lexeme.quotedUnit c) 0 cs).rest with
    | nil => simp
    | cons d rest =>
      have hstop := hmunch.unit_rest (by rw [hrest]; exact List.cons_ne_nil d rest)
      rw [hrest] at hstop
      simp [Lexeme.head?_of_quotedUnit hstop]
  | single hsingle =>
    obtain rfl | rfl | rfl | rfl :=
        Lexeme.single?_isSome_iff.mp (Option.isSome_of_eq_some hsingle) <;>
      obtain rfl := Option.some.inj hsingle <;> contradiction
  | _ => contradiction

theorem exists_inner (h : p.Leads behind) (hkind : p.kind = .comment) :
    ∃ inner, p.text = '/' :: '*' :: inner ++ (if p.closed then ['*', '/'] else []) ∧
      ¬['*', '/'] <:+: inner := by
  obtain ⟨cs, -, lexeme, hread, rfl⟩ := h
  cases hread with
  | @comment cs =>
    have hmunch := Cut.munches_munch (fun _ ↦ Lexeme.commentUnit) 0 cs
    obtain ⟨htaken, -, hclosed⟩ := Lexeme.comment_eq (c := '/') (d := '*') hmunch
    refine ⟨_, ?_, hmunch.not_infix⟩
    simp only [Lexeme.piece, htaken, hclosed]
    by_cases hrest : (Cut.munch (fun _ ↦ Lexeme.commentUnit) 0 cs).rest = []
    · simp [hrest]
    · obtain ⟨later, hlater⟩ := Lexeme.commentUnit_eq_zero_iff.mp (hmunch.unit_rest hrest)
      simp [hlater]
  | single hsingle =>
    obtain rfl | rfl | rfl | rfl :=
        Lexeme.single?_isSome_iff.mp (Option.isSome_of_eq_some hsingle) <;>
      obtain rfl := Option.some.inj hsingle <;> contradiction
  | _ => contradiction

/-- A token that is neither a string nor made of many characters is one character. -/
theorem length_text (h : p.Leads behind)
    (hkind : p.kind ≠ .space ∧ p.kind ≠ .string ∧ p.kind ≠ .comment ∧ p.kind ≠ .word ∧
      p.kind ≠ .atWord) : p.text.length = 1 := by
  obtain ⟨cs, -, lexeme, hread, rfl⟩ := h
  obtain ⟨hspace, hstring, hcomment, hword, hatWord⟩ := hkind
  cases hread with
  | space | string | comment | word | atWord => contradiction
  | single | other => rfl

/-- Only at the end of the text can a closing delimiter be missing. -/
theorem closed_of_ne_nil (h : p.Leads behind) (hbehind : behind ≠ []) : p.closed = true := by
  obtain ⟨cs, hcs, lexeme, hread, rfl⟩ := h
  cases hclosed : lexeme.cut.closed with
  | true => exact hclosed
  | false =>
    have hrest := List.append_cancel_left (lexeme.cut.taken_append_rest.trans hcs)
    rw [(hread.rest_of_not_closed hclosed).1] at hrest
    exact absurd hrest.symm hbehind

/-- No escape is left open where text follows. -/
theorem escapes_text (h : p.Leads behind) (hbehind : behind ≠ []) : escapes p.text = false := by
  have hclosed := h.closed_of_ne_nil hbehind
  have hquoted := h.exists_quote
  have hinner := h.exists_inner
  have hblank := h.isBlank_of_space
  obtain ⟨cs, hcs, lexeme, hread, rfl⟩ := h
  have hrest : lexeme.cut.rest ≠ [] := by
    rwa [List.append_cancel_left (lexeme.cut.taken_append_rest.trans hcs)]
  cases hread with
  | space =>
    refine escapes_of_getLast?_ne fun c hc ↦ ?_
    rintro rfl
    exact absurd (hblank rfl _ (List.mem_of_mem_getLast? hc)) Bool.false_ne_true
  | string =>
    obtain ⟨quote, inner, hquote, htext⟩ := hquoted rfl
    rw [htext, hclosed, if_pos rfl, escapes_concat]
    have hne : quote ≠ '\\' := by
      rintro rfl
      contradiction
    simp [hne]
  | comment =>
    obtain ⟨inner, htext, -⟩ := hinner rfl
    rw [htext, hclosed, if_pos rfl, ← List.singleton_append (l := ['/']), ← List.append_assoc,
      escapes_concat]
    simp
  | @single c cs kind hsingle =>
    obtain rfl | rfl | rfl | rfl :=
      Lexeme.single?_isSome_iff.mp (Option.isSome_of_eq_some hsingle) <;> rfl
  | @atWord cs =>
    have hmunch := Cut.munches_munch (fun _ ↦ Lexeme.atWordUnit) 0 cs
    obtain ⟨htaken, hleft⟩ := Lexeme.atWord_eq (c := '@') hmunch
    rw [Lexeme.piece, htaken]
    exact hmunch.escapes_taken Lexeme.escaping_atWordUnit (hleft ▸ hrest)
  | @word c cs =>
    have hmunch := Cut.munches_munch (Lexeme.wordUnit []) 0 (c :: cs)
    exact hmunch.escapes_taken (Lexeme.escaping_wordUnit []) hrest
  | @other c cs plain noComment noSign hword =>
    refine escapes_of_getLast?_ne fun d hd ↦ ?_
    obtain rfl := Option.some.inj hd
    rintro rfl
    have hmunch := Cut.munches_munch (Lexeme.wordUnit []) 0 ('\\' :: cs)
    have hnone : (Cut.munch (Lexeme.wordUnit []) 0 ('\\' :: cs)).rest = '\\' :: cs := by
      have happend := (Lexeme.word [] 0 ('\\' :: cs)).taken_append_rest
      rwa [hword, List.nil_append] at happend
    have hstop := hmunch.unit_rest (by rw [hnone]; exact List.cons_ne_nil _ _)
    rw [hnone, Lexeme.wordUnit_eq [] _ rfl] at hstop
    contradiction

end Piece.Leads

/-! ## Places in the text -/

section

variable {ts us vs : List Token} {t u : Token} {xs ys : List Char}

/-- Each token is read in front of the rest of the text. -/
theorem leads_of_tokenize {text : String} (hts : tokenize text = us ++ t :: vs) :
    ∃ behind, t.piece.Leads behind ∧ (vs ≠ [] → behind ≠ []) := by
  have hchained := (chained_tokenize text).1
  rw [hts, List.map_append, chained_append] at hchained
  obtain ⟨-, hleads, hvs⟩ := hchained
  rw [List.append_nil] at hleads
  refine ⟨_, hleads, fun hne ↦ ?_⟩
  obtain ⟨u, vs, rfl⟩ := List.exists_cons_of_ne_nil hne
  exact List.append_ne_nil_of_left_ne_nil hvs.1.text_ne_nil _

/-- In front of more text no token leaves an escape open. -/
theorem escapes_textOf {text : String} (hts : tokenize text = us ++ (ts ++ vs)) (hvs : vs ≠ []) :
    escapes (textOf ts) = false := by
  induction ts generalizing us with
  | nil => rfl
  | cons t ts ih =>
    obtain ⟨behind, hleads, hbehind⟩ := leads_of_tokenize hts
    have htext : escapes t.text.toList = false :=
      hleads.escapes_text (hbehind (List.append_ne_nil_of_right_ne_nil _ hvs))
    have happend : tokenize text = us ++ [t] ++ (ts ++ vs) := by
      rw [hts, List.append_assoc]
      rfl
    rw [textOf_cons, escapes_append htext]
    exact ih happend

/-- A place in the text is between two tokens or inside of one. -/
theorem exists_of_textOf_eq_append (h : textOf ts = xs ++ ys) :
    (∃ us vs, ts = us ++ vs ∧ xs = textOf us) ∨
      ∃ us t vs xs' ys', ts = us ++ t :: vs ∧ t.text.toList = xs' ++ ys' ∧ xs' ≠ [] ∧ ys' ≠ [] ∧
        xs = textOf us ++ xs' := by
  induction ts generalizing xs with
  | nil =>
    obtain ⟨rfl, -⟩ := List.append_eq_nil_iff.mp h.symm
    exact .inl ⟨[], [], rfl, rfl⟩
  | cons t ts ih =>
    rw [textOf_cons] at h
    obtain ⟨more, rfl, hmore⟩ | ⟨more, htext, hys⟩ := List.append_eq_append_iff.mp h
    · obtain ⟨us, vs, rfl, rfl⟩ | ⟨us, u, vs, xs', ys', rfl, hu, hxs, hys, rfl⟩ := ih hmore
      · exact .inl ⟨t :: us, vs, rfl, (textOf_cons t us).symm⟩
      · refine .inr ⟨t :: us, u, vs, xs', ys', rfl, hu, hxs, hys, ?_⟩
        rw [textOf_cons, List.append_assoc]
    · by_cases hxs : xs = []
      · exact .inl ⟨[], t :: ts, rfl, hxs⟩
      by_cases hmore : more = []
      · rw [hmore, List.append_nil] at htext
        exact .inl ⟨[t], ts, rfl, by simp [htext]⟩
      · exact .inr ⟨[], t, ts, xs, more, rfl, htext, hxs, hmore, rfl⟩

/-- A place inside of a token is behind all tokens that end in front of it. -/
theorem exists_append_of_inside {before behind : List Token}
    (hts : us ++ vs = before ++ t :: behind) (htext : t.text.toList = xs ++ ys) (hys : ys ≠ [])
    {zs : List Char} (hplace : textOf us ++ zs = textOf before ++ xs) :
    ∃ ws, before = us ++ ws ∧ zs = textOf ws ++ xs := by
  obtain ⟨ws, rfl, -⟩ | ⟨ws, rfl, hws⟩ := List.append_eq_append_iff.mp hts
  · refine ⟨ws, rfl, ?_⟩
    rw [textOf_append, List.append_assoc] at hplace
    exact List.append_cancel_left hplace
  · cases ws with
    | nil =>
      rw [List.append_nil] at hplace
      exact ⟨[], by simp, by simpa using List.append_cancel_left hplace⟩
    | cons u ws =>
      obtain ⟨rfl, -⟩ := List.cons.inj hws
      rw [textOf_append, textOf_cons, htext] at hplace
      simp [hys] at hplace

end

end Stylesheet
