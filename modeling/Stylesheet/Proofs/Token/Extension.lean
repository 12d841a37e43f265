import Stylesheet.Proofs.Token.Group
import Stylesheet.Proofs.Token.Shape

/-!
# Text put behind a text

Where the delimiters that are missing at its end are put behind a text, all tokens but the last stay
as they are (`Cursor.exists_last`). What becomes of the last depends on its end: an unclosed comment
takes its own delimiter and nothing else, an unclosed string takes everything, and a word or at-word
that ends with a backslash takes one character. Any other token stays as it is.
-/

namespace Stylesheet

open Text

namespace Lexeme

variable {memory : Memory} {offset : Nat} {c : Char} {cs taken rest behind : List Char}

/-! ## Units -/

theorem steady_quotedUnit (quote : Char) (behind : List Char) :
    Cut.Steady (fun _ ↦ quotedUnit quote) behind where
  two _ _ _ _ := rfl
  stop _ _ h := h

theorem steady_commentUnit (behind : List Char) : Cut.Steady (fun _ ↦ commentUnit) behind where
  two _ c d cs := by
    by_cases hcomment : c = '*' ∧ d = '/'
    · obtain ⟨rfl, rfl⟩ := hcomment
      rfl
    · have hone (cs : List Char) : commentUnit (c :: d :: cs) = 1 := by
        unfold commentUnit
        split <;> simp_all
      rw [List.cons_append, List.cons_append, hone, hone]
  stop _ c h := by
    obtain ⟨rest, hrest⟩ := commentUnit_eq_zero_iff.mp h
    simp at hrest

theorem startsComment_append (c d : Char) (cs behind : List Char) :
    startsComment (c :: d :: cs ++ behind) = startsComment (c :: d :: cs) := by
  rw [Bool.eq_iff_iff, startsComment_iff, startsComment_iff]
  simp

theorem startsComment_singleton (c : Char) : startsComment [c] = false := by
  rw [← Bool.not_eq_true, startsComment_iff]
  simp

theorem startsComment_of_isOpener (h : Bracket.isOpener c = true) (cs : List Char) :
    startsComment (c :: cs) = false := by
  rw [← Bool.not_eq_true, startsComment_iff]
  rintro ⟨behind, hall⟩
  obtain ⟨rfl, -⟩ := List.cons.inj hall
  contradiction

theorem groupUnit_append (memory : Memory) (offset : Nat) (cs : List Char)
    (hbehind : Closing behind) :
    groupUnit memory offset (cs ++ behind) = groupUnit memory offset cs := by
  rw [groupUnit, groupUnit, Bracket.lookahead_append offset cs hbehind]

theorem escapes_singleton (h : c ≠ '\\') : escapes [c] = false :=
  beq_false_of_ne h

/-- Where no at-word ends, it goes on with an escape or a single character. -/
theorem atWordUnit_eq (h : (endsAtWord c || startsComment (c :: cs)) = false) :
    atWordUnit (c :: cs) = if c = '\\' then 2 else 1 := by
  rw [atWordUnit, h, if_neg Bool.false_ne_true]

/-- Where no word ends, it goes on with an escape, a group or a single character. -/
theorem wordUnit_eq (memory : Memory) (offset : Nat)
    (h : (endsWord c || startsComment (c :: cs)) = false) :
    wordUnit memory offset (c :: cs) =
      if c = '\\' then 2
      else if Bracket.isOpener c then groupUnit memory offset (c :: cs) else 1 := by
  rw [wordUnit, h, if_neg Bool.false_ne_true]

theorem steady_atWordUnit (behind : List Char) : Cut.Steady (fun _ ↦ atWordUnit) behind where
  two _ c d cs := by
    have hcomment := startsComment_append c d cs behind
    simp only [List.cons_append] at hcomment
    simp only [List.cons_append, atWordUnit, hcomment]
  stop _ c h := by
    cases hends : endsAtWord c with
    | true => simp [atWordUnit, hends]
    | false =>
      rw [atWordUnit_eq (by rw [hends, startsComment_singleton]; rfl)] at h
      split at h <;> contradiction

theorem steady_wordUnit (memory : Memory) (hbehind : Closing behind) :
    Cut.Steady (wordUnit memory) behind where
  two offset c d cs := by
    have hcomment := startsComment_append c d cs behind
    have hgroup := groupUnit_append memory offset (c :: d :: cs) hbehind
    simp only [List.cons_append] at hcomment hgroup
    simp only [List.cons_append, wordUnit, hcomment, hgroup]
  stop offset c h := by
    have hgroup := groupUnit_append memory offset [c] hbehind
    cases hends : endsWord c with
    | true => simp [wordUnit, hends]
    | false =>
      rw [wordUnit_eq memory offset (by rw [hends, startsComment_singleton]; rfl)] at h
      by_cases hbackslash : c = '\\'
      · rw [if_pos hbackslash] at h
        contradiction
      rw [if_neg hbackslash] at h
      cases hopener : Bracket.isOpener c with
      | false =>
        rw [hopener, if_neg Bool.false_ne_true] at h
        contradiction
      | true =>
        have hcomment := startsComment_of_isOpener hopener behind
        rw [hopener, if_pos rfl] at h
        rw [wordUnit_eq memory offset (by rw [hends, hcomment]; rfl), if_neg hbackslash, hopener,
          if_pos rfl]
        exact hgroup.trans h

theorem escaping_atWordUnit : Cut.Escaping fun _ ↦ atWordUnit where
  pair _ c cs := atWordUnit_eq rfl
  cases _ cs hcs := by
    obtain ⟨c, cs, rfl⟩ := List.exists_cons_of_ne_nil hcs
    cases hstop : endsAtWord c || startsComment (c :: cs) with
    | true => exact .inl (by rw [atWordUnit, hstop, if_pos rfl])
    | false =>
      rw [atWordUnit_eq hstop]
      by_cases hbackslash : c = '\\'
      · rw [if_pos hbackslash]
        exact .inr (.inl ⟨cs, by rw [hbackslash], rfl⟩)
      · rw [if_neg hbackslash]
        exact .inr (.inr ⟨[c], cs, rfl, rfl, escapes_singleton hbackslash⟩)

theorem escaping_wordUnit (memory : Memory) : Cut.Escaping (wordUnit memory) where
  pair offset c cs := wordUnit_eq memory offset rfl
  cases offset cs hcs := by
    obtain ⟨c, cs, rfl⟩ := List.exists_cons_of_ne_nil hcs
    cases hstop : endsWord c || startsComment (c :: cs) with
    | true => exact .inl (by rw [wordUnit, hstop, if_pos rfl])
    | false =>
      rw [wordUnit_eq memory offset hstop]
      by_cases hbackslash : c = '\\'
      · rw [if_pos hbackslash]
        exact .inr (.inl ⟨cs, by rw [hbackslash], rfl⟩)
      rw [if_neg hbackslash]
      cases Bracket.isOpener c with
      | false => exact .inr (.inr ⟨[c], cs, rfl, rfl, escapes_singleton hbackslash⟩)
      | true =>
        rw [if_pos rfl]
        unfold groupUnit
        split
        · exact .inl rfl
        · split
          · next hgroup =>
            obtain ⟨front, behind, hall, _, hlength, hend⟩ := Bracket.escapes_of_lookahead hgroup
            exact .inr (.inr ⟨front, behind, hall, hlength, hend⟩)
          · exact .inl rfl

/-! ## Lexemes -/

theorem startsComment_append_of (h : startsComment (c :: cs) = false)
    (hbehind : cs ≠ [] ∨ ∃ behind', behind = '}' :: behind') :
    startsComment (c :: cs ++ behind) = false := by
  cases cs with
  | cons d cs => exact (startsComment_append c d cs behind).trans h
  | nil =>
    obtain ⟨behind, rfl⟩ := hbehind.resolve_left fun hne ↦ hne rfl
    rw [← Bool.not_eq_true, startsComment_iff]
    simp

/-- A closing brace ends words and at-words, and changes nothing in front of it. -/
theorem atWordUnit_brace (c : Char) (behind : List Char) :
    atWordUnit (c :: '}' :: behind) = atWordUnit [c] := by
  have hcomment : startsComment (c :: '}' :: behind) = startsComment [c] := by
    rw [startsComment_singleton, ← Bool.not_eq_true, startsComment_iff]
    simp
  rw [atWordUnit, atWordUnit, hcomment]

theorem wordUnit_brace (memory : Memory) (offset : Nat) (c : Char)
    (hbehind : Closing ('}' :: behind)) :
    wordUnit memory offset (c :: '}' :: behind) = wordUnit memory offset [c] := by
  have hcomment : startsComment (c :: '}' :: behind) = startsComment [c] := by
    rw [startsComment_singleton, ← Bool.not_eq_true, startsComment_iff]
    simp
  have hgroup := groupUnit_append memory offset [c] hbehind
  rw [List.singleton_append] at hgroup
  rw [wordUnit, wordUnit, hcomment, hgroup]

/-- The lexeme at the front of a longer text that takes the same characters. -/
structure Extends (lexeme : Lexeme cs) (behind : List Char) (longer : Lexeme (cs ++ behind)) :
    Prop where
  kind : longer.kind = lexeme.kind
  cut : lexeme.cut.Extends behind longer.cut

theorem extends_space (hbehind : Closing behind) (cs : List Char) :
    (space cs).Extends behind (space (cs ++ behind)) := by
  have hsplit : (cs ++ behind).takeWhile isBlank = cs.takeWhile isBlank ∧
      (cs ++ behind).dropWhile isBlank = cs.dropWhile isBlank ++ behind := by
    induction cs with
    | nil =>
      cases behind with
      | nil => exact ⟨rfl, rfl⟩
      | cons c behind =>
        have hblank : isBlank c = false := by
          rcases hbehind c List.mem_cons_self with rfl | rfl | rfl <;> rfl
        simp [hblank]
    | cons c cs ih =>
      cases hblank : isBlank c with
      | true => simpa [hblank] using ih
      | false => simp [hblank]
  exact ⟨hsplit.1, hsplit.2, rfl⟩

/-- A string that is closed stays as it is. -/
theorem extends_quoted {quote : Char} (behind : List Char)
    (hclosed : (quoted quote (c :: cs)).closed = true) :
    (quoted quote (c :: cs)).Extends behind (quoted quote (c :: (cs ++ behind))) := by
  have hmunch := Cut.munches_munch (fun _ ↦ quotedUnit quote) 0 cs
  obtain ⟨htaken, hrest, hfound⟩ := @quoted_eq _ quote c _ _ hmunch
  have hne : (Cut.munch (fun _ ↦ quotedUnit quote) 0 cs).rest ≠ [] := by
    intro hempty
    rw [hfound, hempty] at hclosed
    contradiction
  obtain ⟨htaken', hrest', hfound'⟩ :=
    @quoted_eq _ quote c _ _ (hmunch.extend (steady_quotedUnit quote behind) hne)
  obtain ⟨d, rest, hcons⟩ := List.exists_cons_of_ne_nil hne
  rw [hcons] at htaken hrest hfound htaken' hrest' hfound'
  exact ⟨htaken'.trans htaken.symm, hrest'.trans (congrArg (· ++ behind) hrest.symm),
    hfound'.trans hfound.symm⟩

/-- A comment that is closed stays as it is. -/
theorem extends_comment {d : Char} (behind : List Char)
    (hclosed : (comment (c :: d :: cs)).closed = true) :
    (comment (c :: d :: cs)).Extends behind (comment (c :: d :: (cs ++ behind))) := by
  have hmunch := Cut.munches_munch (fun _ ↦ commentUnit) 0 cs
  obtain ⟨htaken, hrest, hfound⟩ := @comment_eq _ c d _ _ hmunch
  have hne : (Cut.munch (fun _ ↦ commentUnit) 0 cs).rest ≠ [] := by
    intro hempty
    rw [hfound, hempty] at hclosed
    contradiction
  obtain ⟨htaken', hrest', hfound'⟩ :=
    @comment_eq _ c d _ _ (hmunch.extend (steady_commentUnit behind) hne)
  obtain ⟨rest, hcons⟩ := commentUnit_eq_zero_iff.mp (hmunch.unit_rest hne)
  rw [hcons] at htaken hrest hfound htaken' hrest' hfound'
  exact ⟨htaken'.trans htaken.symm, hrest'.trans (congrArg (· ++ behind) hrest.symm),
    hfound'.trans hfound.symm⟩

theorem extends_atWord (hend : (atWord (c :: cs)).rest ≠ [] ∨
      (∃ behind', behind = '}' :: behind') ∧ escapes (atWord (c :: cs)).taken = false)
    (hsign : c ≠ '\\') : (atWord (c :: cs)).Extends behind (atWord (c :: (cs ++ behind))) := by
  have hmunch := Cut.munches_munch (fun _ ↦ atWordUnit) 0 cs
  obtain ⟨htaken, hrest⟩ := @atWord_eq c _ _ _ hmunch
  have hplain := escapes_append (escapes_singleton hsign)
    (Cut.munch (fun _ ↦ atWordUnit) 0 cs).taken
  rw [List.singleton_append, ← htaken] at hplain
  rw [hrest, hplain] at hend
  obtain ⟨htaken', hrest'⟩ := @atWord_eq c _ _ _
    (hmunch.extend_bounded (steady_atWordUnit behind) escaping_atWordUnit (fun _ _ ↦ rfl)
      (fun _ c cs hcs ↦ hcs ▸ atWordUnit_brace c cs) hend)
  exact ⟨htaken'.trans htaken.symm, hrest'.trans (congrArg (· ++ behind) hrest.symm), rfl⟩

theorem extends_word (memory : Memory) (offset : Nat) (hbehind : Closing behind)
    (hend : (word memory offset cs).rest ≠ [] ∨
      (∃ behind', behind = '}' :: behind') ∧ escapes (word memory offset cs).taken = false) :
    (word memory offset cs).Extends behind (word memory offset (cs ++ behind)) := by
  have hmunch := Cut.munches_munch (wordUnit memory) offset cs
  have hlonger := hmunch.extend_bounded (steady_wordUnit memory hbehind) (escaping_wordUnit memory)
    (fun _ _ ↦ rfl) (fun offset c cs hcs ↦ by
      rw [hcs] at hbehind ⊢
      exact wordUnit_brace memory offset c hbehind) hend
  exact ⟨hlonger.taken_munch, hlonger.rest_munch, rfl⟩

/-- Where there is no word, there is a bracket that no group starts with. -/
theorem isOpener_of_word_eq_nil {memory : Memory} {offset : Nat} (plain : endsWord c = false)
    (noComment : startsComment (c :: cs) = false)
    (h : (word memory offset (c :: cs)).taken = []) : Bracket.isOpener c = true := by
  have hmunch := Cut.munches_munch (wordUnit memory) offset (c :: cs)
  have hrest : (word memory offset (c :: cs)).rest = c :: cs := by
    have hall := (word memory offset (c :: cs)).taken_append_rest
    rwa [h] at hall
  have hstop := hmunch.unit_rest (by rw [← word, hrest]; exact List.cons_ne_nil c cs)
  rw [← word, hrest, wordUnit_eq memory _ (by rw [plain, noComment]; rfl)] at hstop
  by_cases hbackslash : c = '\\'
  · rw [if_pos hbackslash] at hstop
    contradiction
  · rw [if_neg hbackslash] at hstop
    cases hopener : Bracket.isOpener c with
    | true => rfl
    | false =>
      rw [hopener, if_neg Bool.false_ne_true] at hstop
      contradiction

variable {lexeme : Lexeme cs}

/-- A lexeme stays as it is if text is left behind it or a closing brace is put there, unless the
brace is escaped. -/
theorem Reads.exists_extends (h : Reads memory offset cs lexeme) (hbehind : Closing behind)
    (hclosed : lexeme.cut.closed = true)
    (hend : lexeme.cut.rest ≠ [] ∨ ((∃ behind', behind = '}' :: behind') ∧
      (lexeme.kind = .word ∨ lexeme.kind = .atWord → escapes lexeme.cut.taken = false))) :
    ∃ longer, Reads memory offset (cs ++ behind) longer ∧ lexeme.Extends behind longer := by
  cases h with
  | space blank => exact ⟨_, .space blank, rfl, extends_space hbehind _⟩
  | string quote => exact ⟨_, .string quote, rfl, extends_quoted behind hclosed⟩
  | comment => exact ⟨_, .comment, rfl, extends_comment behind hclosed⟩
  | single hsingle => exact ⟨_, .single hsingle, rfl, rfl, rfl, rfl⟩
  | atWord =>
    have hextends := extends_atWord (hend.imp_right (And.imp_right fun h ↦ h (.inr rfl)))
      (by decide)
    exact ⟨_, .atWord, rfl, hextends⟩
  | @word c cs plain noComment noSign hword =>
    have hextends := extends_word memory offset hbehind
      (hend.imp_right (And.imp_right fun h ↦ h (.inl rfl)))
    have hcomment : startsComment (c :: cs ++ behind) = false := by
      apply startsComment_append_of noComment
      refine hend.imp (fun hne hcs ↦ ?_) And.left
      have hall := (Lexeme.word memory offset (c :: cs)).length_taken_add_rest
      have htaken := List.length_pos_iff.mpr hword
      have hrest := List.length_pos_iff.mpr hne
      have hone : (c :: cs).length = 1 := by rw [hcs]; rfl
      dsimp only at hrest
      omega
    exact ⟨_, .word plain hcomment noSign (hextends.taken.symm ▸ hword), rfl, hextends⟩
  | @other c cs plain noComment noSign hword =>
    have hopener := isOpener_of_word_eq_nil plain noComment hword
    have hcomment := startsComment_of_isOpener hopener (cs ++ behind)
    have hrest : (Lexeme.word memory offset (c :: cs)).rest ≠ [] := by
      have hall := (Lexeme.word memory offset (c :: cs)).taken_append_rest
      rw [hword, List.nil_append] at hall
      rw [hall]
      exact List.cons_ne_nil c cs
    have hextends := extends_word memory offset hbehind (.inl hrest)
    exact ⟨_, .other plain hcomment noSign (hextends.taken.trans hword), rfl, rfl, rfl, rfl⟩

/-! ## The last lexeme -/

theorem munches_comment_end (h : Cut.Munches (fun _ ↦ commentUnit) offset cs taken rest)
    (hrest : rest = []) (behind : List Char) :
    Cut.Munches (fun _ ↦ commentUnit) offset (cs ++ '*' :: '/' :: behind) taken
      ('*' :: '/' :: behind) := by
  induction h with
  | nothing => exact .stop rfl
  | stop =>
    rw [hrest]
    exact .stop rfl
  | @next offset xs cs taken rest hxs hlength _ ih =>
    have hunit : commentUnit (xs ++ (cs ++ '*' :: '/' :: behind)) = xs.length := by
      rw [← hlength, ← List.append_assoc]
      -- Only a single character can be followed by the delimiter and be no part of it.
      cases hall : xs ++ cs with
      | nil => simp [hxs] at hall
      | cons y ys =>
        cases ys with
        | nil => by_cases hstar : y = '*' <;> simp [commentUnit, hstar]
        | cons z ys => exact (steady_commentUnit _).two 0 y z ys
    rw [List.append_assoc]
    exact .next hxs hunit (ih hrest)
  | @short offset cs hcs hshort =>
    have hone : commentUnit cs ≤ 1 := by
      unfold commentUnit
      split <;> omega
    have hpos := List.length_pos_iff.mpr hcs
    omega

/-- An unclosed comment is closed by its delimiter. -/
theorem Reads.exists_comment (h : Reads memory offset cs lexeme) (hkind : lexeme.kind = .comment)
    (hopen : lexeme.cut.closed = false) (behind : List Char) :
    ∃ longer, Reads memory offset (cs ++ '*' :: '/' :: behind) longer ∧ longer.kind = .comment ∧
      longer.cut.taken = lexeme.cut.taken ++ ['*', '/'] ∧ longer.cut.rest = behind ∧
        longer.cut.closed = true := by
  cases h with
  | @comment cs =>
    have hmunch := Cut.munches_munch (fun _ ↦ commentUnit) 0 cs
    obtain ⟨htaken, hrest, hfound⟩ := @comment_eq _ '/' '*' _ _ hmunch
    have hempty : (Cut.munch (fun _ ↦ commentUnit) 0 cs).rest = [] := by
      have hisEmpty := hfound.symm.trans hopen
      simpa using hisEmpty
    obtain ⟨htaken', hrest', hfound'⟩ :=
      @comment_eq _ '/' '*' _ _ (munches_comment_end hmunch hempty behind)
    refine ⟨_, .comment, rfl, ?_, hrest', hfound'⟩
    rw [hempty] at htaken
    exact htaken'.trans (by rw [htaken]; simp)
  | single => exact absurd hopen (Bool.false_ne_true ∘ Eq.symm)
  | _ => contradiction

/-- Inside of a string the delimiters are characters like any other. -/
theorem munches_quoted_closing {quote : Char} (hquote : isQuote quote = true)
    (hcs : Closing cs) (offset : Nat) :
    Cut.Munches (fun _ ↦ quotedUnit quote) offset cs cs [] := by
  induction cs generalizing offset with
  | nil => exact .nothing offset
  | cons c cs ih =>
    obtain ⟨hc, hcs⟩ := List.forall_mem_cons.mp hcs
    have hne : c ≠ quote := by
      rintro rfl
      rcases hc with rfl | rfl | rfl <;> contradiction
    have hbackslash : c ≠ '\\' := by
      rcases hc with rfl | rfl | rfl <;> decide
    have hone : quotedUnit quote ([c] ++ cs) = [c].length := by
      simp [quotedUnit, hbackslash, hne]
    exact .next (List.cons_ne_nil c []) hone (ih hcs _)

/-- Only a backslash at the end asks for more than there is. -/
theorem eq_of_lt_quotedUnit {quote : Char} (hcs : cs ≠ []) (h : cs.length < quotedUnit quote cs) :
    cs = ['\\'] := by
  obtain ⟨c, cs, rfl⟩ := List.exists_cons_of_ne_nil hcs
  rw [List.length_cons] at h
  by_cases hbackslash : c = '\\'
  · rw [quotedUnit, if_pos hbackslash] at h
    have hnil : cs.length = 0 := by omega
    rw [hbackslash, List.eq_nil_of_length_eq_zero hnil]
  · have hone : quotedUnit quote (c :: cs) ≤ 1 := by
      rw [quotedUnit, if_neg hbackslash]
      split <;> omega
    omega

theorem munches_quoted_end {quote : Char}
    (h : Cut.Munches (fun _ ↦ quotedUnit quote) offset cs taken rest) (hrest : rest = [])
    (hquote : isQuote quote = true) (hbehind : Closing behind) :
    Cut.Munches (fun _ ↦ quotedUnit quote) offset (cs ++ behind) (taken ++ behind) [] := by
  induction h with
  | nothing => exact munches_quoted_closing hquote hbehind _
  | stop =>
    rw [hrest]
    exact munches_quoted_closing hquote hbehind _
  | @next offset xs cs taken rest hxs hlength _ ih =>
    have hunit : quotedUnit quote (xs ++ (cs ++ behind)) = xs.length := by
      obtain ⟨x, xs, rfl⟩ := List.exists_cons_of_ne_nil hxs
      exact hlength
    rw [List.append_assoc, List.append_assoc]
    exact .next hxs hunit (ih hrest)
  | @short offset cs hcs hshort =>
    obtain rfl := eq_of_lt_quotedUnit hcs hshort
    -- The backslash takes the first character that is put behind, if there is one.
    cases behind with
    | nil => exact .short hcs hshort
    | cons d behind =>
      have hlater : Closing behind := (List.forall_mem_cons.mp hbehind).2
      have hbehind := munches_quoted_closing hquote hlater (offset + byteLength ['\\', d])
      exact @Cut.Munches.next _ _ ['\\', d] _ _ _ (List.cons_ne_nil _ _) rfl hbehind

/-- An unclosed string goes on to the end. -/
theorem Reads.exists_string (h : Reads memory offset cs lexeme) (hkind : lexeme.kind = .string)
    (hopen : lexeme.cut.closed = false) (hbehind : Closing behind) :
    ∃ longer, Reads memory offset (cs ++ behind) longer ∧ longer.kind = .string ∧
      longer.cut.rest = [] := by
  cases h with
  | @string c cs quote =>
    have hmunch := Cut.munches_munch (fun _ ↦ quotedUnit c) 0 cs
    have hfound := (@quoted_eq _ c c _ _ hmunch).2.2
    have hempty : (Cut.munch (fun _ ↦ quotedUnit c) 0 cs).rest = [] := by
      have hisEmpty := hfound.symm.trans hopen
      simpa using hisEmpty
    have hrest := (@quoted_eq _ c c _ _ (munches_quoted_end hmunch hempty quote hbehind)).2.1
    exact ⟨_, .string quote, rfl, hrest⟩
  | single => exact absurd hopen (Bool.false_ne_true ∘ Eq.symm)
  | _ => contradiction

/-- A backslash at the end of a word or an at-word takes a brace with it. -/
theorem Reads.exists_escape (h : Reads memory offset cs lexeme)
    (hkind : lexeme.kind = .word ∨ lexeme.kind = .atWord) (hrest : lexeme.cut.rest = [])
    (hescapes : escapes lexeme.cut.taken = true) (braces : Nat) :
    ∃ longer, Reads memory offset (cs ++ '}' :: List.replicate braces '}') longer ∧
      longer.kind = lexeme.kind ∧ longer.cut.taken = lexeme.cut.taken ++ ['}'] ∧
        longer.cut.rest = List.replicate braces '}' := by
  have hbehind : Closing ('}' :: List.replicate braces '}') := by
    rw [← List.replicate_succ]
    exact fun c hc ↦ .inl (List.eq_of_mem_replicate hc)
  have hend {unit : Nat → List Char → Nat} (hbrace : ∀ offset cs, unit offset ('}' :: cs) = 0)
      (offset : Nat) : Cut.Munches unit offset (List.replicate braces '}') []
        (List.replicate braces '}') := by
    cases braces with
    | zero => exact .nothing offset
    | succ braces => exact .stop (hbrace offset _)
  cases h with
  | @atWord cs =>
    have hmunch := Cut.munches_munch (fun _ ↦ atWordUnit) 0 cs
    obtain ⟨htaken, hleft⟩ := @atWord_eq '@' _ _ _ hmunch
    have hinner := hescapes
    rw [htaken] at hinner
    obtain ⟨htaken', hrest'⟩ := @atWord_eq '@' _ _ _ (hmunch.extend_escape (hleft.symm.trans hrest)
      (steady_atWordUnit _) escaping_atWordUnit (hend fun _ _ ↦ rfl) hinner)
    exact ⟨_, .atWord, rfl, htaken'.trans (by rw [htaken]; rfl), hrest'⟩
  | @word c cs plain noComment noSign hword =>
    have hmunch := Cut.munches_munch (wordUnit memory) offset (c :: cs)
    have hlonger := hmunch.extend_escape hrest (steady_wordUnit memory hbehind)
      (escaping_wordUnit memory) (hend fun _ _ ↦ rfl) hescapes
    have hcomment : startsComment (c :: cs ++ '}' :: List.replicate braces '}') = false :=
      startsComment_append_of noComment (.inr ⟨_, rfl⟩)
    have hne : (Lexeme.word memory offset (c :: (cs ++ '}' :: List.replicate braces '}'))).taken ≠
        [] := by
      intro hempty
      have happend := hlonger.taken_munch.symm.trans hempty
      simp at happend
    exact ⟨_, .word plain hcomment noSign hne, rfl, hlonger.taken_munch, hlonger.rest_munch⟩
  | single hsingle =>
    rcases hkind with rfl | rfl <;>
      rcases single?_isSome_iff.mp (Option.isSome_of_eq_some hsingle) with rfl | rfl | rfl | rfl <;>
        contradiction
  | _ => simp at hkind

end Lexeme

end Stylesheet
