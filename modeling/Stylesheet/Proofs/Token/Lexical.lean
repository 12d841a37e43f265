import Stylesheet.Proofs.Token.Balanced
import Stylesheet.Proofs.Token.Units

/-!
# The lexical grammar

What a piece is in front of the text behind it, for each kind of token and without a loop
(`Piece.Lexed`). A piece is read first just where the grammar has it (`Piece.leads_iff_lexed`), so
the tokens of a text follow the grammar, and no other way to cut the text up does
(`tokenize_lexed`).

Words and at-words are made of units of the same four forms and differ in the characters that they
stop at and in whether a bracket group is a unit (`Units`).
-/

namespace Stylesheet

open Text

def blanks : List Char := [' ', '\t', '\n', '\r', '\x0c']

def atWordStops : List Char := blanks ++ Bracket.quotes ++ ['{', '}', ';', '(']

def wordStops : List Char := blanks ++ Bracket.quotes ++ ['{', '}', ';', ':', '(', '[']

theorem mem_blanks_iff {c : Char} : c ∈ blanks ↔ isBlank c = true := by
  simp [blanks, isBlank, or_assoc]

theorem mem_atWordStops_iff {c : Char} : c ∈ atWordStops ↔ Lexeme.endsAtWord c = true := by
  simp [atWordStops, Lexeme.endsAtWord, mem_blanks_iff, Bracket.mem_quotes_iff, or_assoc]

theorem mem_wordStops_iff {c : Char} :
    c ∈ wordStops ↔ Lexeme.endsWord c = true ∨ Bracket.isOpener c = true := by
  simp [wordStops, Lexeme.endsWord, mem_blanks_iff, Bracket.mem_quotes_iff, Bracket.isOpener_iff,
    or_assoc]

/-! ## Units -/

section

variable {whole : List Char → Prop} {stops : List Char} {behind xs cs : List Char}

/-- A unit in front of the text behind it. Besides single characters and escapes there are texts
that count as a whole. -/
inductive UnitOf (whole : List Char → Prop) (stops behind : List Char) : List Char → Prop
  | escape (c : Char) : UnitOf whole stops behind ['\\', c]
  | backslash (h : behind = []) : UnitOf whole stops behind ['\\']
  | whole {xs : List Char} (h : whole xs) : UnitOf whole stops behind xs
  | single {c : Char} (hmark : c ≠ '\\') (hstop : c ∉ stops)
      (hcomment : startsComment (c :: behind) = false) : UnitOf whole stops behind [c]

/-- Units one behind the other, in front of the text behind them. -/
inductive Units (whole : List Char → Prop) (stops behind : List Char) : List Char → Prop
  | nil : Units whole stops behind []
  | cons {xs cs : List Char} (h : UnitOf whole stops (cs ++ behind) xs)
      (hcs : Units whole stops behind cs) : Units whole stops behind (xs ++ cs)

/-- Where no further unit starts. -/
inductive Ends (whole : List Char → Prop) (stops : List Char) : List Char → Prop
  | nil : Ends whole stops []
  | comment (cs : List Char) : Ends whole stops ('/' :: '*' :: cs)
  | stop {c : Char} {cs : List Char} (h : c ∈ stops)
      (hwhole : ∀ xs behind, c :: cs = xs ++ behind → ¬whole xs) : Ends whole stops (c :: cs)

/-- The rule of a munch finds the units of the grammar. -/
structure Measures (unit : Nat → List Char → Nat) (whole : List Char → Prop)
    (stops : List Char) : Prop where
  unitOf_of_eq : ∀ offset xs behind, xs ≠ [] → unit offset (xs ++ behind) = xs.length →
    UnitOf whole stops behind xs
  eq_of_unitOf : ∀ offset xs behind, UnitOf whole stops behind xs →
    xs ≠ [] ∧ (unit offset (xs ++ behind) = xs.length ∨
      xs = ['\\'] ∧ behind = [] ∧ unit offset ['\\'] = 2)
  eq_zero_iff : ∀ offset cs, unit offset cs = 0 ↔ Ends whole stops cs

/-- A munch takes units for as long as there are any. -/
theorem Measures.munches_iff {unit : Nat → List Char → Nat} (h : Measures unit whole stops)
    (hescaping : Cut.Escaping unit) {offset : Nat} {taken rest : List Char} :
    Cut.Munches unit offset cs taken rest ↔
      cs = taken ++ rest ∧ Units whole stops rest taken ∧ Ends whole stops rest := by
  constructor
  · intro hmunch
    refine ⟨hmunch.append.symm, ?_⟩
    induction hmunch with
    | nothing => exact ⟨.nil, .nil⟩
    | @stop offset cs hstop => exact ⟨.nil, (h.eq_zero_iff offset cs).mp hstop⟩
    | @next offset xs cs taken rest hxs hlength hnext ih =>
      rw [← hnext.append] at hlength
      exact ⟨.cons (h.unitOf_of_eq offset xs _ hxs hlength) ih.1, ih.2⟩
    | @short offset cs hcs hshort =>
      rw [hescaping.short hcs hshort]
      exact ⟨.cons (.backslash rfl) .nil, .nil⟩
  · rintro ⟨rfl, hunits, hends⟩
    induction hunits generalizing offset with
    | nil => exact .stop ((h.eq_zero_iff offset rest).mpr hends)
    | @cons xs cs hunit _ ih =>
      rw [List.append_assoc]
      obtain ⟨hne, hlength | ⟨rfl, hbehind, htwo⟩⟩ := h.eq_of_unitOf offset xs (cs ++ rest) hunit
      · exact .next hne hlength ih
      · -- A backslash at the end of the text is cut short.
        obtain ⟨rfl, rfl⟩ := List.append_eq_nil_iff.mp hbehind
        have hshort : ['\\'].length < unit offset ['\\'] := by
          rw [htwo]
          exact Nat.one_lt_two
        exact .short hne hshort

end

namespace Lexeme

variable {c : Char} {cs : List Char}

theorem measures_atWordUnit :
    Measures (fun _ ↦ atWordUnit) (fun _ ↦ False) atWordStops where
  unitOf_of_eq _ xs behind hne hlength := by
    obtain ⟨c, xs, rfl⟩ := List.exists_cons_of_ne_nil hne
    cases hends : endsAtWord c || startsComment (c :: (xs ++ behind)) with
    | true => simp [atWordUnit, hends] at hlength
    | false =>
      rw [List.cons_append, atWordUnit_eq hends] at hlength
      rw [Bool.or_eq_false_iff] at hends
      by_cases hmark : c = '\\'
      · rw [if_pos hmark] at hlength
        obtain ⟨d, rfl⟩ := List.length_eq_one_iff.mp (Nat.succ.inj hlength).symm
        exact hmark ▸ .escape d
      · rw [if_neg hmark] at hlength
        obtain rfl := List.eq_nil_of_length_eq_zero (Nat.succ.inj hlength).symm
        exact .single hmark (by simp [mem_atWordStops_iff, hends.1]) hends.2
  eq_of_unitOf _ xs behind hunit := by
    cases hunit with
    | escape d => exact ⟨List.cons_ne_nil _ _, .inl rfl⟩
    | backslash hbehind => exact ⟨List.cons_ne_nil _ _, .inr ⟨rfl, hbehind, rfl⟩⟩
    | whole hfalse => exact hfalse.elim
    | @single c hmark hstop hcomment =>
      have hends : (endsAtWord c || startsComment (c :: behind)) = false := by
        rw [mem_atWordStops_iff, Bool.not_eq_true] at hstop
        rw [hstop, hcomment]
        rfl
      refine ⟨List.cons_ne_nil _ _, .inl ?_⟩
      rw [List.singleton_append, atWordUnit_eq hends, if_neg hmark]
      rfl
  eq_zero_iff _ cs := by
    constructor
    · intro hzero
      cases cs with
      | nil => exact .nil
      | cons c cs =>
        cases hends : endsAtWord c || startsComment (c :: cs) with
        | true =>
          obtain hstop | hcomment := Bool.or_eq_true_iff.mp hends
          · exact .stop (mem_atWordStops_iff.mpr hstop) fun _ _ _ hfalse ↦ hfalse
          · obtain ⟨behind, hall⟩ := startsComment_iff.mp hcomment
            exact hall ▸ .comment behind
        | false =>
          rw [atWordUnit_eq hends] at hzero
          split at hzero <;> contradiction
    · rintro (_ | behind | ⟨hstop, -⟩)
      · rfl
      · rfl
      · simp [atWordUnit, mem_atWordStops_iff.mp hstop]

theorem ne_backslash_of_isOpener (h : Bracket.isOpener c = true) : c ≠ '\\' := by
  rintro rfl
  contradiction

theorem groupUnit_eq_length_iff {offset : Nat} {xs behind : List Char} (hne : xs ≠ [])
    (hopener : ∀ c ∈ xs.head?, Bracket.isOpener c = true) :
    groupUnit [] offset (xs ++ behind) = xs.length ↔ Bracket.IsGroup xs := by
  obtain ⟨c, xs, rfl⟩ := List.exists_cons_of_ne_nil hne
  have hc := hopener c rfl
  have hnone : Memory.recalls [] offset = false := rfl
  rw [List.cons_append, groupUnit, hnone, if_neg Bool.false_ne_true]
  constructor
  · intro hlength
    cases hlookahead : Bracket.lookahead offset (c :: (xs ++ behind)) with
    | unmatched openers =>
      rw [hlookahead] at hlength
      exact absurd hlength.symm (Nat.succ_ne_zero _)
    | group length =>
      rw [hlookahead] at hlength
      obtain ⟨group, later, hall, hgroup, hsame⟩ :=
        (Bracket.lookahead_eq_group_iff hc).mp hlookahead
      rw [← List.cons_append] at hall
      rwa [(List.append_inj hall (hlength.symm.trans hsame)).1]
  · intro hgroup
    have hfound : Bracket.lookahead offset (c :: (xs ++ behind)) = .group (c :: xs).length :=
      (Bracket.lookahead_eq_group_iff hc).mpr ⟨c :: xs, behind, rfl, hgroup, rfl⟩
    rw [hfound]

theorem measures_wordUnit : Measures (wordUnit []) Bracket.IsGroup wordStops where
  unitOf_of_eq offset xs behind hne hlength := by
    obtain ⟨c, xs, rfl⟩ := List.exists_cons_of_ne_nil hne
    cases hends : endsWord c || startsComment (c :: (xs ++ behind)) with
    | true => simp [wordUnit, hends] at hlength
    | false =>
      rw [List.cons_append, wordUnit_eq [] offset hends] at hlength
      rw [Bool.or_eq_false_iff] at hends
      by_cases hmark : c = '\\'
      · rw [if_pos hmark] at hlength
        obtain ⟨d, rfl⟩ := List.length_eq_one_iff.mp (Nat.succ.inj hlength).symm
        exact hmark ▸ .escape d
      rw [if_neg hmark] at hlength
      by_cases hopener : Bracket.isOpener c = true
      · rw [if_pos hopener, ← List.cons_append] at hlength
        have hhead : ∀ d ∈ (c :: xs).head?, Bracket.isOpener d = true := by
          simpa using hopener
        exact .whole ((groupUnit_eq_length_iff hne hhead).mp hlength)
      · rw [if_neg hopener] at hlength
        obtain rfl := List.eq_nil_of_length_eq_zero (Nat.succ.inj hlength).symm
        exact .single hmark (by simp [mem_wordStops_iff, hends.1, hopener]) hends.2
  eq_of_unitOf offset xs behind hunit := by
    cases hunit with
    | escape d => exact ⟨List.cons_ne_nil _ _, .inl rfl⟩
    | backslash hbehind => exact ⟨List.cons_ne_nil _ _, .inr ⟨rfl, hbehind, rfl⟩⟩
    | whole hgroup =>
      have hlength (hhead : ∀ c ∈ xs.head?, Bracket.isOpener c = true) :
          groupUnit [] offset (xs ++ behind) = xs.length :=
        (groupUnit_eq_length_iff hgroup.ne_nil hhead).mpr hgroup
      refine ⟨hgroup.ne_nil, .inl ?_⟩
      cases hgroup with
      | @mk opener closer inner hpairs _ =>
        have hopener := hpairs.isOpener
        have hends : (endsWord opener ||
            startsComment (opener :: (inner ++ [closer] ++ behind))) = false := by
          rw [startsComment_of_isOpener hopener, Bool.or_false]
          cases hpairs <;> rfl
        rw [List.cons_append, List.cons_append, wordUnit_eq [] offset hends,
          if_neg (ne_backslash_of_isOpener hopener), if_pos hopener]
        exact hlength (by simpa using hopener)
    | @single c hmark hstop hcomment =>
      rw [mem_wordStops_iff, not_or, Bool.not_eq_true] at hstop
      have hends : (endsWord c || startsComment (c :: behind)) = false := by
        rw [hstop.1, hcomment]
        rfl
      refine ⟨List.cons_ne_nil _ _, .inl ?_⟩
      rw [List.singleton_append, wordUnit_eq [] offset hends, if_neg hmark, if_neg hstop.2]
      rfl
  eq_zero_iff offset cs := by
    constructor
    · intro hzero
      cases cs with
      | nil => exact .nil
      | cons c cs =>
        cases hends : endsWord c || startsComment (c :: cs) with
        | true =>
          obtain hstop | hcomment := Bool.or_eq_true_iff.mp hends
          · refine .stop (mem_wordStops_iff.mpr (.inl hstop)) fun xs behind hall hgroup ↦ ?_
            obtain ⟨hpairs, -⟩ := hgroup
            obtain ⟨rfl, -⟩ := List.cons.inj hall
            cases hpairs <;> contradiction
          · obtain ⟨behind, hall⟩ := startsComment_iff.mp hcomment
            exact hall ▸ .comment behind
        | false =>
          rw [wordUnit_eq [] offset hends] at hzero
          by_cases hmark : c = '\\'
          · rw [if_pos hmark] at hzero
            contradiction
          rw [if_neg hmark] at hzero
          by_cases hopener : Bracket.isOpener c = true
          · rw [if_pos hopener, Bracket.groupUnit_eq_zero_iff offset hopener] at hzero
            exact .stop (mem_wordStops_iff.mpr (.inr hopener)) hzero
          · rw [if_neg hopener] at hzero
            contradiction
    · rintro (_ | behind | @⟨c, cs, hstop, hwhole⟩)
      · rfl
      · rfl
      · cases hends : endsWord c || startsComment (c :: cs) with
        | true => simp [wordUnit, hends]
        | false =>
          rw [Bool.or_eq_false_iff] at hends
          have hopener : Bracket.isOpener c = true := by
            simpa [mem_wordStops_iff, hends.1] using hstop
          rw [wordUnit_eq [] offset (by rw [hends.1, hends.2]; rfl),
            if_neg (ne_backslash_of_isOpener hopener), if_pos hopener]
          exact (Bracket.groupUnit_eq_zero_iff offset hopener).mpr hwhole

theorem plain_of_wordUnit_ne_zero {memory : Memory} {offset : Nat}
    (h : wordUnit memory offset (c :: cs) ≠ 0) :
    endsWord c = false ∧ startsComment (c :: cs) = false := by
  rw [← Bool.or_eq_false_iff, ← Bool.not_eq_true]
  intro hends
  exact h (by rw [wordUnit, if_pos hends])

/-! ## Strings and comments -/

section

variable {quote : Char} {xs : List Char}

theorem shields_escape_iff (hmark : quote ≠ '\\') :
    Shields false ('\\' :: c :: xs) quote ↔ Shields false xs quote := by
  have hescaped : (!false && '\\' == '\\') = true := rfl
  rw [shields_cons_iff, shields_cons_iff, hescaped]
  simp [hmark.symm]

theorem shields_single_iff (hc : c ≠ '\\') :
    Shields false (c :: xs) quote ↔ c ≠ quote ∧ Shields false xs quote := by
  rw [shields_cons_iff, beq_false_of_ne hc]
  simp

/-- A string goes on until a quote is found that is not escaped. -/
theorem shields_of_munches {offset : Nat} {taken rest : List Char} (hmark : quote ≠ '\\')
    (h : Cut.Munches (fun _ ↦ quotedUnit quote) offset cs taken rest) :
    Shields false taken quote ∧ ∀ c ∈ rest.head?, c = quote ∧ escapes taken = false := by
  induction h with
  | nothing => exact ⟨shields_nil _ _, by simp⟩
  | @stop offset cs hstop =>
    refine ⟨shields_nil _ _, fun c hc ↦ ⟨?_, rfl⟩⟩
    obtain ⟨cs, rfl⟩ := List.head?_eq_some_iff.mp hc
    exact head?_of_quotedUnit hstop
  | @next offset xs cs taken rest hxs hlength hnext ih =>
    obtain ⟨x, xs, rfl⟩ := List.exists_cons_of_ne_nil hxs
    rw [List.cons_append, quotedUnit] at hlength
    by_cases hbackslash : x = '\\'
    · rw [if_pos hbackslash] at hlength
      obtain ⟨d, rfl⟩ := List.length_eq_one_iff.mp (Nat.succ.inj hlength).symm
      rw [hbackslash, escapes_append rfl]
      exact ⟨(shields_escape_iff hmark).mpr ih.1, ih.2⟩
    rw [if_neg hbackslash] at hlength
    by_cases hquote : x = quote
    · rw [if_pos hquote] at hlength
      exact absurd hlength.symm (Nat.succ_ne_zero _)
    · rw [if_neg hquote] at hlength
      obtain rfl := List.eq_nil_of_length_eq_zero (Nat.succ.inj hlength).symm
      rw [escapes_append (escapes_singleton hbackslash)]
      exact ⟨(shields_single_iff hbackslash).mpr ⟨hquote, ih.1⟩, ih.2⟩
  | @short offset cs hcs hshort =>
    rw [eq_of_lt_quotedUnit hcs hshort]
    exact ⟨(shields_cons_iff.mpr ⟨fun h ↦ absurd h.symm hmark, shields_nil _ _⟩), by simp⟩

end

/-- There is one place where a string ends. -/
theorem eq_of_shields {quote : Char} {xs ys xs' ys' : List Char} (hall : xs ++ ys = xs' ++ ys')
    (hxs : Shields false xs quote) (hys : ∀ c ∈ ys.head?, c = quote ∧ escapes xs = false)
    (hxs' : Shields false xs' quote) (hys' : ∀ c ∈ ys'.head?, c = quote ∧ escapes xs' = false) :
    xs = xs' := by
  obtain ⟨more, rfl, rfl⟩ | ⟨more, rfl, rfl⟩ := List.append_eq_append_iff.mp hall
  · cases more with
    | nil => rw [List.append_nil]
    | cons c more =>
      obtain ⟨rfl, hends⟩ := hys c rfl
      exact absurd (hends.symm.trans (hxs' xs more rfl)) Bool.false_ne_true
  · cases more with
    | nil => rw [List.append_nil]
    | cons c more =>
      obtain ⟨rfl, hends⟩ := hys' c rfl
      exact absurd (hends.symm.trans (hxs xs' more rfl)) Bool.false_ne_true

theorem munches_quoted {quote : Char} {inner rest : List Char} (hmark : quote ≠ '\\')
    (hinner : Shields false inner quote)
    (hrest : ∀ c ∈ rest.head?, c = quote ∧ escapes inner = false) (offset : Nat) :
    Cut.Munches (fun _ ↦ quotedUnit quote) offset (inner ++ rest) inner rest := by
  have hmunch := Cut.munches_munch (fun _ ↦ quotedUnit quote) offset (inner ++ rest)
  obtain ⟨htaken, hleft⟩ := shields_of_munches hmark hmunch
  have hsame := eq_of_shields hmunch.append htaken hleft hinner hrest
  have happend := hmunch.append
  rw [hsame] at hmunch happend
  rwa [List.append_cancel_left happend] at hmunch

section

variable {inner rest : List Char}

theorem commentUnit_eq_one (h : commentUnit cs ≠ 0) : commentUnit cs = 1 := by
  unfold commentUnit at h ⊢
  split at h
  · contradiction
  · rfl

/-- A comment goes on for as long as its closing delimiter is not there. -/
theorem munches_comment (hinner : ¬['*', '/'] <:+: inner)
    (hrest : rest = [] ∨ ∃ behind, rest = '*' :: '/' :: behind) (offset : Nat) :
    Cut.Munches (fun _ ↦ commentUnit) offset (inner ++ rest) inner rest := by
  induction inner generalizing offset with
  | nil =>
    obtain rfl | ⟨behind, rfl⟩ := hrest
    · exact .nothing offset
    · exact .stop rfl
  | cons c inner ih =>
    rw [List.infix_cons_iff, not_or] at hinner
    have hone : commentUnit (c :: (inner ++ rest)) = 1 := by
      refine commentUnit_eq_one fun hzero ↦ ?_
      obtain ⟨behind, hall⟩ := commentUnit_eq_zero_iff.mp hzero
      obtain ⟨rfl, hslash⟩ := List.cons.inj hall
      cases inner with
      | cons d inner =>
        obtain ⟨rfl, -⟩ := List.cons.inj hslash
        exact hinner.1 ⟨inner, rfl⟩
      | nil =>
        obtain rfl | ⟨behind', rfl⟩ := hrest
        · contradiction
        · exact absurd (List.cons.inj hslash).1 (by decide)
    exact @Cut.Munches.next _ _ [c] _ _ _ (List.cons_ne_nil _ _) hone (ih hinner.2 _)

end

end Lexeme

/-! ## Pieces -/

namespace Piece

/-- The piece in front of the text behind it, by the grammar. -/
inductive Lexed : Piece → List Char → Prop
  | space {xs behind : List Char} (hne : xs ≠ []) (hxs : ∀ c ∈ xs, c ∈ blanks)
      (hbehind : ∀ c ∈ behind.head?, c ∉ blanks) : Lexed ⟨.space, xs, true⟩ behind
  | string {quote : Char} {inner : List Char} (hquote : quote ∈ Bracket.quotes)
      (hinner : Shields false inner quote) (hend : escapes inner = false) (behind : List Char) :
      Lexed ⟨.string, quote :: inner ++ [quote], true⟩ behind
  | openString {quote : Char} {inner : List Char} (hquote : quote ∈ Bracket.quotes)
      (hinner : Shields false inner quote) : Lexed ⟨.string, quote :: inner, false⟩ []
  | comment {inner : List Char} (hinner : ¬['*', '/'] <:+: inner) (behind : List Char) :
      Lexed ⟨.comment, '/' :: '*' :: inner ++ ['*', '/'], true⟩ behind
  | openComment {inner : List Char} (hinner : ¬['*', '/'] <:+: inner) :
      Lexed ⟨.comment, '/' :: '*' :: inner, false⟩ []
  | openCurly (behind : List Char) : Lexed ⟨.openCurly, ['{'], true⟩ behind
  | closeCurly (behind : List Char) : Lexed ⟨.closeCurly, ['}'], true⟩ behind
  | semicolon (behind : List Char) : Lexed ⟨.semicolon, [';'], true⟩ behind
  | colon (behind : List Char) : Lexed ⟨.colon, [':'], true⟩ behind
  | atWord {name behind : List Char} (hname : Units (fun _ ↦ False) atWordStops behind name)
      (hbehind : Ends (fun _ ↦ False) atWordStops behind) :
      Lexed ⟨.atWord, '@' :: name, true⟩ behind
  | word {xs behind : List Char} (hne : xs ≠ []) (hsign : xs.head? ≠ some '@')
      (hxs : Units Bracket.IsGroup wordStops behind xs)
      (hbehind : Ends Bracket.IsGroup wordStops behind) : Lexed ⟨.word, xs, true⟩ behind
  | other {c : Char} {behind : List Char} (hc : c ∈ ['(', '['])
      (hnone : Bracket.NoGroup (c :: behind)) : Lexed ⟨.other, [c], true⟩ behind

variable {p : Piece} {behind : List Char}

theorem lexed_single {c : Char} {kind : TokenKind} (h : Lexeme.single? c = some kind)
    (behind : List Char) : Lexed ⟨kind, [c], true⟩ behind := by
  obtain rfl | rfl | rfl | rfl := Lexeme.single?_isSome_iff.mp (Option.isSome_of_eq_some h) <;>
    obtain rfl := Option.some.inj h
  · exact .openCurly behind
  · exact .closeCurly behind
  · exact .semicolon behind
  · exact .colon behind

theorem ne_backslash_of_isQuote {quote : Char} (h : isQuote quote = true) : quote ≠ '\\' := by
  rintro rfl
  contradiction

/-- What is read first is what the grammar has. -/
theorem Leads.lexed (h : p.Leads behind) : p.Lexed behind := by
  have hinner := h.exists_inner
  have hend := h.closed_of_ne_nil
  obtain ⟨cs, hcs, lexeme, hread, rfl⟩ := h
  have hrest : lexeme.cut.rest = behind :=
    List.append_cancel_left (lexeme.cut.taken_append_rest.trans hcs)
  cases hread with
  | @space c cs blank =>
    refine .space (Lexeme.space_taken_ne_nil blank)
      (fun d hd ↦ mem_blanks_iff.mpr (List.all_eq_true.mp List.all_takeWhile d hd)) fun d hd ↦ ?_
    have hplain := List.head?_dropWhile_not isBlank (c :: cs)
    rw [show List.dropWhile isBlank (c :: cs) = behind from hrest, hd] at hplain
    simpa [mem_blanks_iff] using hplain
  | @string c cs quote =>
    have hmunch := Cut.munches_munch (fun _ ↦ Lexeme.quotedUnit c) 0 cs
    obtain ⟨htaken, hleft, hclosed⟩ := Lexeme.quoted_eq (c := c) hmunch
    obtain ⟨hshields, hquote⟩ := Lexeme.shields_of_munches (ne_backslash_of_isQuote quote) hmunch
    have hmem := Bracket.mem_quotes_iff.mpr quote
    generalize (Cut.munch (fun _ ↦ Lexeme.quotedUnit c) 0 cs).taken = inner at *
    generalize (Cut.munch (fun _ ↦ Lexeme.quotedUnit c) 0 cs).rest = rest at *
    cases rest with
    | nil =>
      rw [Lexeme.piece, htaken, hclosed, ← hleft.symm.trans hrest, List.take_nil, List.append_nil]
      exact .openString hmem hshields
    | cons d rest =>
      obtain ⟨rfl, hends⟩ := hquote d rfl
      rw [Lexeme.piece, htaken, hclosed]
      exact .string hmem hshields hends behind
  | @comment cs =>
    obtain ⟨inner, htext, hnone⟩ := hinner rfl
    rw [Lexeme.piece] at htext hend ⊢
    dsimp only at htext hend
    cases hclosed : (Lexeme.comment ('/' :: '*' :: cs)).closed with
    | true =>
      rw [htext, hclosed]
      exact .comment hnone behind
    | false =>
      by_cases hbehind : behind = []
      · rw [htext, hclosed, hbehind, if_neg Bool.false_ne_true, List.append_nil]
        exact .openComment hnone
      · exact absurd (hclosed.symm.trans (hend hbehind)) Bool.false_ne_true
  | single hsingle => exact lexed_single hsingle behind
  | @atWord cs =>
    have hmunch := Cut.munches_munch (fun _ ↦ Lexeme.atWordUnit) 0 cs
    obtain ⟨htaken, hleft⟩ := Lexeme.atWord_eq (c := '@') hmunch
    obtain ⟨-, hname, hends⟩ := (Lexeme.measures_atWordUnit.munches_iff
      Lexeme.escaping_atWordUnit).mp hmunch
    rw [← hleft.symm.trans hrest, Lexeme.piece, htaken]
    exact .atWord hname hends
  | @word c cs plain noComment noSign hword =>
    have hmunch := Cut.munches_munch (Lexeme.wordUnit []) 0 (c :: cs)
    obtain ⟨hall, hxs, hends⟩ := (Lexeme.measures_wordUnit.munches_iff
      (Lexeme.escaping_wordUnit [])).mp hmunch
    rw [show (Cut.munch (Lexeme.wordUnit []) 0 (c :: cs)).rest = behind from hrest] at hxs hends
    refine .word hword ?_ hxs hends
    obtain ⟨x, xs, hx⟩ := List.exists_cons_of_ne_nil hword
    have htext := (Lexeme.word [] 0 (c :: cs)).taken_append_rest
    rw [hx] at htext ⊢
    obtain ⟨rfl, -⟩ := List.cons.inj htext
    simpa using noSign
  | @other c cs plain noComment noSign hword =>
    obtain rfl : cs = behind := (List.cons.inj hcs).2
    have hopener := Lexeme.isOpener_of_word_eq_nil plain noComment hword
    have hmunch := Cut.munches_munch (Lexeme.wordUnit []) 0 (c :: cs)
    have hleft : (Cut.munch (Lexeme.wordUnit []) 0 (c :: cs)).rest = c :: cs := by
      have happend := (Lexeme.word [] 0 (c :: cs)).taken_append_rest
      rwa [hword, List.nil_append] at happend
    obtain ⟨-, -, hends⟩ := (Lexeme.measures_wordUnit.munches_iff
      (Lexeme.escaping_wordUnit [])).mp hmunch
    rw [hleft] at hends
    refine .other (by simpa [Bracket.isOpener_iff] using hopener) ?_
    cases hends with
    | comment => contradiction
    | stop _ hnone => exact hnone

theorem Lexed.leads (h : p.Lexed behind) : p.Leads behind := by
  cases h with
  | space hne hxs hbehind =>
    refine leads_space hne (fun c hc ↦ mem_blanks_iff.mp (hxs c hc)) fun c hc ↦ ?_
    rw [← Bool.not_eq_true, ← mem_blanks_iff]
    exact hbehind c hc
  | @string quote inner hquote hinner hends =>
    have hmark := Bracket.mem_quotes_iff.mp hquote
    have hrest : ∀ c ∈ (quote :: behind).head?, c = quote ∧ escapes inner = false := by
      simpa using hends
    have hmunch := Lexeme.munches_quoted (ne_backslash_of_isQuote hmark) hinner hrest 0
    obtain ⟨htaken, -, hclosed⟩ := Lexeme.quoted_eq (c := quote) hmunch
    exact ⟨_, by simp, _, .string hmark, Lexeme.piece_eq rfl htaken hclosed⟩
  | @openString quote inner hquote hinner =>
    have hmark := Bracket.mem_quotes_iff.mp hquote
    have hrest : ∀ c ∈ ([] : List Char).head?, c = quote ∧ escapes inner = false := by simp
    have hmunch := Lexeme.munches_quoted (ne_backslash_of_isQuote hmark) hinner hrest 0
    obtain ⟨htaken, -, hclosed⟩ := Lexeme.quoted_eq (c := quote) hmunch
    exact ⟨_, rfl, _, .string hmark, Lexeme.piece_eq rfl (htaken.trans (by simp)) hclosed⟩
  | @comment inner hinner =>
    have hmunch := Lexeme.munches_comment hinner (.inr ⟨behind, rfl⟩) 0
    obtain ⟨htaken, -, hclosed⟩ := Lexeme.comment_eq (c := '/') (d := '*') hmunch
    exact ⟨_, by simp, _, .comment, Lexeme.piece_eq rfl htaken hclosed⟩
  | @openComment inner hinner =>
    have hmunch := Lexeme.munches_comment hinner (.inl rfl) 0
    obtain ⟨htaken, -, hclosed⟩ := Lexeme.comment_eq (c := '/') (d := '*') hmunch
    exact ⟨_, rfl, _, .comment, Lexeme.piece_eq rfl (htaken.trans (by simp)) hclosed⟩
  | openCurly | closeCurly | semicolon | colon => exact leads_single rfl behind
  | @atWord name _ hname hbehind =>
    have hmunch : Cut.Munches (fun _ ↦ Lexeme.atWordUnit) 0 (name ++ behind) name behind :=
      (Lexeme.measures_atWordUnit.munches_iff Lexeme.escaping_atWordUnit).mpr ⟨rfl, hname, hbehind⟩
    obtain ⟨htaken, -⟩ := Lexeme.atWord_eq (c := '@') hmunch
    exact ⟨_, rfl, _, .atWord, Lexeme.piece_eq rfl htaken rfl⟩
  | @word xs _ hne hsign hxs hbehind =>
    have hmunch : Cut.Munches (Lexeme.wordUnit []) 0 (xs ++ behind) xs behind :=
      (Lexeme.measures_wordUnit.munches_iff (Lexeme.escaping_wordUnit [])).mpr ⟨rfl, hxs, hbehind⟩
    obtain ⟨x, xs, rfl⟩ := List.exists_cons_of_ne_nil hne
    have hunit : Lexeme.wordUnit [] 0 (x :: (xs ++ behind)) ≠ 0 := fun hzero ↦
      List.cons_ne_nil x xs (hmunch.taken_munch.symm.trans (Cut.Munches.stop hzero).taken_munch)
    obtain ⟨hplain, hcomment⟩ := Lexeme.plain_of_wordUnit_ne_zero hunit
    exact ⟨_, rfl, _, .word hplain hcomment (by simpa using hsign)
      (hmunch.taken_munch ▸ List.cons_ne_nil x xs), Lexeme.piece_eq rfl hmunch.taken_munch rfl⟩
  | @other c _ hc hnone =>
    have hopener : Bracket.isOpener c = true := by simpa [Bracket.isOpener_iff] using hc
    have hplain : Lexeme.endsWord c = false := by
      obtain rfl | rfl := Bracket.isOpener_iff.mp hopener <;> rfl
    have hsign : c ≠ '@' := by
      rintro rfl
      contradiction
    have hzero : Lexeme.wordUnit [] 0 (c :: behind) = 0 :=
      (Lexeme.measures_wordUnit.eq_zero_iff 0 _).mpr
        (.stop (mem_wordStops_iff.mpr (.inr hopener)) hnone)
    exact ⟨_, rfl, _, .other hplain (Lexeme.startsComment_of_isOpener hopener behind)
      hsign
      (Cut.Munches.stop hzero).taken_munch, rfl⟩

/-- A piece is read first just where the grammar has it. -/
theorem leads_iff_lexed : p.Leads behind ↔ p.Lexed behind :=
  ⟨Leads.lexed, Lexed.leads⟩

/-- In a chain each piece is read in front of the pieces behind it. -/
theorem chained_iff {ps : List Piece} :
    Chained ps behind ↔
      ∀ front p later, ps = front ++ p :: later → p.Leads (join later ++ behind) := by
  constructor
  · rintro h front p later rfl
    exact (chained_append.mp h).2.1
  · intro h
    induction ps with
    | nil => trivial
    | cons p ps ih =>
      exact ⟨h [] p ps rfl, ih fun front q later hps ↦ h (p :: front) q later (by rw [hps]; rfl)⟩

theorem join_map_piece (ts : List Token) : join (ts.map Token.piece) = textOf ts := by
  induction ts with
  | nil => rfl
  | cons t ts ih => rw [List.map_cons, join_cons, ih, textOf_cons, Token.piece]

theorem Lexed.of_mem_text (h : p.Lexed behind) {c : Char} {kind : TokenKind}
    (hkind : Lexeme.single? c = some kind) (hc : c ∈ p.text) :
    p.text = [c] ∧ p.kind = kind ∨
      p.kind = .string ∨ p.kind = .comment ∨ p.kind = .word ∨ p.kind = .atWord := by
  have hchars := Lexeme.single?_isSome_iff.mp (Option.isSome_of_eq_some hkind)
  cases h with
  | space hne hxs =>
    have hblank := hxs c hc
    obtain rfl | rfl | rfl | rfl := hchars <;> exact absurd hblank (by decide)
  | string | openString | comment | openComment | word | atWord => simp
  | openCurly | closeCurly | semicolon | colon =>
    obtain rfl := List.mem_singleton.mp hc
    exact .inl ⟨rfl, Option.some.inj hkind⟩
  | other hbracket =>
    obtain rfl := List.mem_singleton.mp hc
    obtain rfl | rfl | rfl | rfl := hchars <;> exact absurd hbracket (by decide)

end Piece

/-! ## Tokens -/

/-- A character of the text is a character of one of the tokens. -/
theorem exists_of_textOf_eq_append_cons {ts : List Token} {xs ys : List Char} {c : Char}
    (h : textOf ts = xs ++ c :: ys) :
    ∃ front t behind xs' ys', ts = front ++ t :: behind ∧ xs = textOf front ++ xs' ∧
      t.text.toList = xs' ++ c :: ys' := by
  induction ts generalizing xs with
  | nil => simp at h
  | cons t ts ih =>
    rw [textOf_cons] at h
    -- The character is in the text of a later token, or there is some text left of this one.
    obtain ⟨more, rfl, hmore⟩ | ⟨_ | ⟨d, more⟩, htext, hmore⟩ := List.append_eq_append_iff.mp h
    · obtain ⟨front, u, behind, xs', ys', rfl, rfl, hu⟩ := ih hmore
      exact ⟨t :: front, u, behind, xs', ys', rfl, by rw [textOf_cons, List.append_assoc], hu⟩
    · obtain ⟨front, u, behind, xs', ys', rfl, hxs, hu⟩ := @ih [] hmore.symm
      rw [List.append_nil] at htext
      refine ⟨t :: front, u, behind, xs', ys', rfl, ?_, hu⟩
      rw [textOf_cons, List.append_assoc, ← hxs, List.append_nil, htext]
    · obtain ⟨rfl, -⟩ := List.cons.inj hmore
      exact ⟨[], t, ts, xs, more, rfl, rfl, htext⟩

/-- The tokens of a text follow the grammar, and they alone do. -/
structure Lexes (text : String) (ts : List Token) : Prop where
  lexed : ∀ front t behind, ts = front ++ t :: behind → t.piece.Lexed (textOf behind)
  /-- White space is taken as a whole. -/
  space : ∀ front t u behind, ts = front ++ t :: u :: behind → t.kind = .space → u.kind ≠ .space
  /-- A brace, semicolon or colon is a token of its own unless it is inside of another one. -/
  single : ∀ xs c ys kind, text.toList = xs ++ c :: ys → Lexeme.single? c = some kind →
    ∃ front t behind xs' ys', ts = front ++ t :: behind ∧ xs = textOf front ++ xs' ∧
      t.text.toList = xs' ++ c :: ys' ∧ (t.text.toList = [c] ∧ t.kind = kind ∨
        t.kind = .string ∨ t.kind = .comment ∨ t.kind = .word ∨ t.kind = .atWord)
  only : ∀ ps, Piece.join ps = text.toList →
    (∀ front p behind, ps = front ++ p :: behind → p.Lexed (Piece.join behind)) →
      ps = ts.map Token.piece

theorem tokenize_lexed (text : String) : Lexes (withoutMark text) (tokenize text) := by
  obtain ⟨hchained, hjoin⟩ := chained_tokenize text
  have hlexed (front : List Token) (t : Token) (behind : List Token)
      (hts : tokenize text = front ++ t :: behind) : t.piece.Lexed (textOf behind) := by
    have hsplit := congrArg (List.map Token.piece) hts
    rw [List.map_append, List.map_cons] at hsplit
    have hleads := Piece.chained_iff.mp hchained _ _ _ hsplit
    rw [List.append_nil, Piece.join_map_piece] at hleads
    exact hleads.lexed
  have htextOf : textOf (tokenize text) = (withoutMark text).toList := by
    rw [toList_withoutMark, ← hjoin, Piece.join_map_piece]
  refine ⟨hlexed, ?_, ?_, ?_⟩
  · intro front t u behind hts ht hu
    have hfirst : t.piece.Leads (u.piece.text ++ textOf behind) := by
      have hleads := (hlexed front t (u :: behind) hts).leads
      rwa [textOf_cons] at hleads
    have hnext : u.piece.Leads (textOf behind) :=
      (hlexed (front ++ [t]) u behind (by rw [hts, List.append_cons])).leads
    have hstops := hfirst.stopsAt hnext (by rw [Token.piece, hu]; simp) []
    rw [Piece.StopsAt, show t.piece.kind = .space from ht] at hstops
    obtain ⟨c, cs, hcs⟩ := List.exists_cons_of_ne_nil hnext.text_ne_nil
    have hblank := hnext.isBlank_of_space hu c (by rw [hcs]; exact List.mem_cons_self)
    have hplain := hstops c (by rw [hcs]; rfl)
    exact Bool.false_ne_true (hplain.symm.trans hblank)
  · intro xs c ys kind htext hkind
    obtain ⟨front, t, behind, xs', ys', hts, hxs, ht⟩ :=
      exists_of_textOf_eq_append_cons (htextOf.trans htext)
    have hmem : c ∈ t.piece.text := by
      rw [Token.piece, ht]
      exact List.mem_append_right xs' List.mem_cons_self
    exact ⟨front, t, behind, xs', ys', hts, hxs, ht,
      (hlexed front t behind hts).of_mem_text hkind hmem⟩
  · intro ps htext hps
    have hchain : Piece.Chained ps [] := Piece.chained_iff.mpr fun front p later hsplit ↦ by
      rw [List.append_nil]
      exact (hps front p later hsplit).leads
    rw [toList_withoutMark] at htext
    rw [tokenize_eq_placed htext.symm hchain, map_piece_placed]

end Stylesheet
