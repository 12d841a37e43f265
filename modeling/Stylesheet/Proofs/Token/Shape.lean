import Stylesheet.Proofs.Text.Munch
import Stylesheet.Token.Lexer

/-!
# The shape of tokens

`Lexeme.Reads` lists the seven ways in which a text can start with a lexeme, each with what
decides for it. The texts of single characters, at-words and comments follow, and so does that a
lexeme without its closing delimiter leaves nothing behind.

For a whole text: its tokens make up the text again (`join_tokenize`), each has the shape of its
kind (`shaped_of_mem_tokenize`), and all but the last are closed
(`unclosed_of_mem_dropLast_tokenize`).
-/

namespace Stylesheet

open Text

namespace Lexeme

/-- What the text starts with. The memory plays a part for words alone. -/
inductive Reads (memory : Memory) (offset : Nat) : (cs : List Char) → Lexeme cs → Prop where
  | space {c : Char} {cs : List Char} (blank : isBlank c = true) :
      Reads memory offset (c :: cs) ⟨.space, Lexeme.space _, space_taken_ne_nil blank⟩
  | string {c : Char} {cs : List Char} (quote : isQuote c = true) :
      Reads memory offset (c :: cs) ⟨.string, quoted c _, quoted_taken_ne_nil c c cs⟩
  | comment {cs : List Char} :
      Reads memory offset ('/' :: '*' :: cs) ⟨.comment, Lexeme.comment _, comment_taken_ne_nil _ _⟩
  | single {c : Char} {cs : List Char} {kind : TokenKind} (h : single? c = some kind) :
      Reads memory offset (c :: cs) ⟨kind, Cut.characters 1 _, single_taken_ne_nil c cs⟩
  | atWord {cs : List Char} :
      Reads memory offset ('@' :: cs) ⟨.atWord, Lexeme.atWord _, atWord_taken_ne_nil '@' cs⟩
  | word {c : Char} {cs : List Char} (plain : endsWord c = false)
      (noComment : startsComment (c :: cs) = false) (noSign : c ≠ '@')
      (h : (Lexeme.word memory offset (c :: cs)).taken ≠ []) :
      Reads memory offset (c :: cs) ⟨.word, Lexeme.word memory offset _, h⟩
  | other {c : Char} {cs : List Char} (plain : endsWord c = false)
      (noComment : startsComment (c :: cs) = false) (noSign : c ≠ '@')
      (h : (Lexeme.word memory offset (c :: cs)).taken = []) :
      Reads memory offset (c :: cs) ⟨.other, Cut.characters 1 _, single_taken_ne_nil c cs⟩

variable {memory : Memory} {offset : Nat} {c : Char} {cs : List Char} {lexeme : Lexeme cs}

theorem startsComment_iff : startsComment cs = true ↔ ∃ behind, cs = '/' :: '*' :: behind := by
  unfold startsComment
  split <;> simp_all

theorem single?_isSome_iff :
    (single? c).isSome = true ↔ c = '{' ∨ c = '}' ∨ c = ';' ∨ c = ':' := by
  unfold single?
  split <;> simp_all

/-- A word ends in front of white space, of quotes and of what is a token by itself. -/
theorem endsWord_eq (c : Char) :
    endsWord c = (isBlank c || isQuote c || (single? c).isSome) := by
  rw [Bool.eq_iff_iff]
  simp only [endsWord, Bool.or_eq_true, single?_isSome_iff, beq_iff_eq, or_assoc]

theorem isBlank_of_isQuote (h : isQuote c = true) : isBlank c = false := by
  simp only [isQuote, Bool.or_eq_true, beq_iff_eq] at h
  rcases h with rfl | rfl <;> rfl

theorem plain_of_single? (cs : List Char) (h : (single? c).isSome = true) :
    isBlank c = false ∧ isQuote c = false ∧ startsComment (c :: cs) = false := by
  rcases single?_isSome_iff.mp h with rfl | rfl | rfl | rfl <;> exact ⟨rfl, rfl, rfl⟩

theorem Reads.ofText?_eq (h : Reads memory offset cs lexeme) :
    ofText? memory offset cs = some lexeme := by
  cases h with
  | space blank => simp [ofText?, blank]
  | string quote => simp [ofText?, isBlank_of_isQuote quote, quote]
  | comment => rfl
  | @single c cs kind h =>
    obtain ⟨hblank, hquote, hcomment⟩ := plain_of_single? cs (by rw [h]; rfl)
    simp [ofText?, hblank, hquote, hcomment, h]
  | atWord => rfl
  | @word c cs plain noComment noSign h =>
    simp only [endsWord_eq, Bool.or_eq_false_iff, Option.isSome_eq_false_iff,
      Option.isNone_iff_eq_none] at plain
    simp [ofText?, plain, noComment, noSign, wordOrOther, h]
  | @other c cs plain noComment noSign h =>
    simp only [endsWord_eq, Bool.or_eq_false_iff, Option.isSome_eq_false_iff,
      Option.isNone_iff_eq_none] at plain
    simp [ofText?, plain, noComment, noSign, wordOrOther, h]

theorem exists_reads (memory : Memory) (offset : Nat) (c : Char) (cs : List Char) :
    ∃ lexeme, Reads memory offset (c :: cs) lexeme := by
  by_cases hplain : endsWord c = true
  · simp only [endsWord_eq, Bool.or_eq_true, Option.isSome_iff_exists] at hplain
    rcases hplain with (hblank | hquote) | ⟨kind, hsingle⟩
    · exact ⟨_, .space hblank⟩
    · exact ⟨_, .string hquote⟩
    · exact ⟨_, .single hsingle⟩
  rw [Bool.not_eq_true] at hplain
  by_cases hcomment : startsComment (c :: cs) = true
  · obtain ⟨behind, hbehind⟩ := startsComment_iff.mp hcomment
    exact hbehind ▸ ⟨_, .comment⟩
  rw [Bool.not_eq_true] at hcomment
  by_cases hsign : c = '@'
  · exact hsign ▸ ⟨_, .atWord⟩
  by_cases hword : (Lexeme.word memory offset (c :: cs)).taken = []
  · exact ⟨_, .other hplain hcomment hsign hword⟩
  · exact ⟨_, .word hplain hcomment hsign hword⟩

theorem ofText?_eq_some_iff :
    ofText? memory offset cs = some lexeme ↔ Reads memory offset cs lexeme := by
  constructor
  · intro h
    cases cs with
    | nil => simp [ofText?] at h
    | cons c cs =>
      obtain ⟨found, hfound⟩ := exists_reads memory offset c cs
      rw [hfound.ofText?_eq, Option.some.injEq] at h
      exact h ▸ hfound
  · exact Reads.ofText?_eq

theorem ofText?_eq_none_iff : ofText? memory offset cs = none ↔ cs = [] := by
  constructor
  · intro h
    cases cs with
    | nil => rfl
    | cons c cs =>
      obtain ⟨found, hfound⟩ := exists_reads memory offset c cs
      rw [hfound.ofText?_eq] at h
      contradiction
  · rintro rfl
    rfl

/-! ## Delimiters -/

theorem quoted_eq {quote c : Char} {inner rest : List Char}
    (h : Cut.Munches (fun _ ↦ quotedUnit quote) 0 cs inner rest) :
    (quoted quote (c :: cs)).taken = c :: inner ++ rest.take 1 ∧
      (quoted quote (c :: cs)).rest = rest.drop 1 ∧
      (quoted quote (c :: cs)).closed = !rest.isEmpty := by
  rw [← h.taken_munch, ← h.rest_munch]
  exact ⟨rfl, rfl, rfl⟩

theorem comment_eq {c d : Char} {inner rest : List Char}
    (h : Cut.Munches (fun _ ↦ commentUnit) 0 cs inner rest) :
    (comment (c :: d :: cs)).taken = c :: d :: inner ++ rest.take 2 ∧
      (comment (c :: d :: cs)).rest = rest.drop 2 ∧
      (comment (c :: d :: cs)).closed = !rest.isEmpty := by
  rw [← h.taken_munch, ← h.rest_munch]
  exact ⟨rfl, rfl, rfl⟩

theorem atWord_eq {inner rest : List Char}
    (h : Cut.Munches (fun _ ↦ atWordUnit) 0 cs inner rest) :
    (atWord (c :: cs)).taken = c :: inner ∧ (atWord (c :: cs)).rest = rest := by
  rw [← h.taken_munch, ← h.rest_munch]
  exact ⟨rfl, rfl⟩

theorem commentUnit_eq_zero_iff : commentUnit cs = 0 ↔ ∃ behind, cs = '*' :: '/' :: behind := by
  unfold commentUnit
  split <;> simp_all

/-- Without its closing delimiter a lexeme runs to the end of the text. -/
theorem Reads.rest_of_not_closed (h : Reads memory offset cs lexeme)
    (hclosed : lexeme.cut.closed = false) :
    lexeme.cut.rest = [] ∧ (lexeme.kind = .string ∨ lexeme.kind = .comment) := by
  cases h with
  | @string c cs =>
    obtain ⟨_, hrest, hfound⟩ := quoted_eq (c := c) (Cut.munches_munch (fun _ ↦ quotedUnit c) 0 cs)
    have hempty : (Cut.munch (fun _ ↦ quotedUnit c) 0 cs).rest = [] := by
      simpa [hfound] using hclosed
    exact ⟨by simp [hrest, hempty], .inl rfl⟩
  | @comment cs =>
    obtain ⟨_, hrest, hfound⟩ :=
      comment_eq (c := '/') (d := '*') (Cut.munches_munch (fun _ ↦ commentUnit) 0 cs)
    have hempty : (Cut.munch (fun _ ↦ commentUnit) 0 cs).rest = [] := by
      simpa [hfound] using hclosed
    exact ⟨by simp [hrest, hempty], .inr rfl⟩
  | space => simp [Lexeme.space, Cut.takeWhile] at hclosed
  | single => simp [Cut.characters] at hclosed
  | atWord => simp [Lexeme.atWord, Cut.andThen, Cut.munch] at hclosed
  | word => simp [Lexeme.word, Cut.munch] at hclosed
  | other => simp [Cut.characters] at hclosed

theorem single?_inj {d : Char} {kind : TokenKind} (hc : single? c = some kind)
    (hd : single? d = some kind) : c = d := by
  have heq : single? c = single? d := hc.trans hd.symm
  rcases single?_isSome_iff.mp (Option.isSome_of_eq_some hc) with rfl | rfl | rfl | rfl <;>
    rcases single?_isSome_iff.mp (Option.isSome_of_eq_some hd) with rfl | rfl | rfl | rfl <;>
      simp [single?] at heq ⊢

theorem Reads.taken_single (h : Reads memory offset cs lexeme)
    (hkind : single? c = some lexeme.kind) : lexeme.cut.taken = [c] := by
  have hc := single?_isSome_iff.mp (Option.isSome_of_eq_some hkind)
  cases h with
  | single hd => simp [Cut.characters, single?_inj hkind hd]
  | _ => rcases hc with rfl | rfl | rfl | rfl <;> simp [single?] at hkind

theorem Reads.taken_atWord (h : Reads memory offset cs lexeme) (hkind : lexeme.kind = .atWord) :
    ∃ name, lexeme.cut.taken = '@' :: name := by
  cases h with
  | @atWord cs => exact ⟨_, (atWord_eq (Cut.munches_munch _ 0 cs)).1⟩
  | single hd =>
    rcases single?_isSome_iff.mp (Option.isSome_of_eq_some hd) with rfl | rfl | rfl | rfl <;>
      simp_all [single?]
  | _ => simp at hkind

theorem Reads.taken_comment (h : Reads memory offset cs lexeme) (hkind : lexeme.kind = .comment) :
    ∃ inner, lexeme.cut.taken =
      '/' :: '*' :: inner ++ if lexeme.cut.closed then ['*', '/'] else [] := by
  cases h with
  | @comment cs =>
    have hmunch := Cut.munches_munch (fun _ ↦ commentUnit) 0 cs
    obtain ⟨htaken, _, hclosed⟩ := comment_eq (c := '/') (d := '*') hmunch
    refine ⟨(Cut.munch (fun _ ↦ commentUnit) 0 cs).taken, ?_⟩
    rw [htaken, hclosed]
    by_cases hrest : (Cut.munch (fun _ ↦ commentUnit) 0 cs).rest = []
    · simp [hrest]
    · obtain ⟨behind, hbehind⟩ := commentUnit_eq_zero_iff.mp (hmunch.unit_rest hrest)
      simp [hbehind]
  | single hd =>
    rcases single?_isSome_iff.mp (Option.isSome_of_eq_some hd) with rfl | rfl | rfl | rfl <;>
      simp_all [single?]
  | _ => simp at hkind

end Lexeme

/-! ## Tokens -/

namespace Token

/-- What is certain about a token by its kind alone. -/
structure Shaped (t : Token) : Prop where
  single : ∀ c, Lexeme.single? c = some t.kind → t.text = String.ofList [c]
  atWord : t.kind = .atWord → ∃ name, t.text = String.ofList ('@' :: name)
  comment : t.kind = .comment → ∃ inner,
    t.text = String.ofList ('/' :: '*' :: inner ++ if t.unclosed then [] else ['*', '/'])
  unclosed : t.unclosed = true → t.kind = .string ∨ t.kind = .comment

end Token

namespace Cursor

variable {c : Cursor} {lexeme : Lexeme c.rest}

theorem shaped_token (h : Lexeme.Reads c.unmatched c.offset c.rest lexeme) :
    (c.token lexeme).Shaped where
  single d hd := congrArg String.ofList (h.taken_single hd)
  atWord hkind := by
    obtain ⟨name, hname⟩ := h.taken_atWord hkind
    exact ⟨name, congrArg String.ofList hname⟩
  comment hkind := by
    obtain ⟨inner, hinner⟩ := h.taken_comment hkind
    refine ⟨inner, ?_⟩
    rw [token, hinner]
    cases lexeme.cut.closed <;> rfl
  unclosed hopen := (h.rest_of_not_closed (by simpa [token] using hopen)).2

theorem lexeme?_eq_some_iff :
    c.lexeme? = some lexeme ↔ Lexeme.Reads c.unmatched c.offset c.rest lexeme :=
  Lexeme.ofText?_eq_some_iff

theorem lexeme?_eq_none_iff : c.lexeme? = none ↔ c.rest = [] :=
  Lexeme.ofText?_eq_none_iff

/-- What holds at the end of a text, and is handed from each token to the one in front, holds of
the tokens of every cursor. -/
theorem tokens_induction {motive : Cursor → List Token → Prop}
    (nil : ∀ c : Cursor, c.rest = [] → motive c [])
    (cons : ∀ (c : Cursor) (lexeme : Lexeme c.rest),
      Lexeme.Reads c.unmatched c.offset c.rest lexeme →
      motive (c.pass lexeme) (c.pass lexeme).tokens →
      motive c (c.token lexeme :: (c.pass lexeme).tokens))
    (c : Cursor) : motive c c.tokens := by
  cases h : c.lexeme? with
  | none =>
    rw [tokens_eq_nil h]
    exact nil c (lexeme?_eq_none_iff.mp h)
  | some lexeme =>
    rw [tokens_eq_cons h]
    exact cons c lexeme (lexeme?_eq_some_iff.mp h) (tokens_induction nil cons (c.pass lexeme))
termination_by c.rest.length
decreasing_by
  rw [pass_rest]
  exact lexeme.cut.length_rest_lt lexeme.taken_ne_nil

theorem join_tokens (c : Cursor) :
    String.join (c.tokens.map Token.text) = String.ofList c.rest := by
  apply tokens_induction (motive := fun c ts ↦
    String.join (ts.map Token.text) = String.ofList c.rest) _ _ c
  · intro c hrest
    rw [hrest]
    rfl
  · intro c lexeme _ ih
    have hjoin := congrArg String.ofList lexeme.cut.taken_append_rest
    rw [pass_rest] at ih
    simpa [token, ih, String.ofList_append] using hjoin

theorem shaped_of_mem_tokens {c : Cursor} : ∀ t ∈ c.tokens, t.Shaped := by
  apply tokens_induction (motive := fun _ ts ↦ ∀ t ∈ ts, t.Shaped) _ _ c
  · simp
  · intro c lexeme h ih
    exact List.forall_mem_cons.mpr ⟨shaped_token h, ih⟩

theorem tokens_of_rest_nil (h : c.rest = []) : c.tokens = [] :=
  tokens_eq_nil (lexeme?_eq_none_iff.mpr h)

theorem unclosed_of_mem_dropLast_tokens {c : Cursor} :
    ∀ t ∈ c.tokens.dropLast, t.unclosed = false := by
  apply tokens_induction (motive := fun _ ts ↦ ∀ t ∈ ts.dropLast, t.unclosed = false) _ _ c
  · simp
  · intro c lexeme h ih t ht
    by_cases hlast : (c.pass lexeme).tokens = []
    · simp [hlast] at ht
    rw [List.dropLast_cons_of_ne_nil hlast, List.mem_cons] at ht
    rcases ht with rfl | ht
    · cases hclosed : lexeme.cut.closed with
      | true => simp [token, hclosed]
      | false =>
        have hrest : (c.pass lexeme).rest = [] := by
          rw [pass_rest, (h.rest_of_not_closed hclosed).1]
        exact absurd (tokens_of_rest_nil hrest) hlast
    · exact ih t ht

end Cursor

/-- The text without its byte order mark. -/
def withoutMark (text : String) : String :=
  String.ofList (stripMark text.toList)

theorem toList_withoutMark (text : String) : (withoutMark text).toList = stripMark text.toList :=
  String.toList_ofList

theorem stripMark_of_head?_ne {cs : List Char} (h : cs.head? ≠ some '\uFEFF') :
    stripMark cs = cs := by
  unfold stripMark
  split
  · exact absurd rfl h
  · rfl

theorem withoutMark_of_head?_ne {text : String} (h : text.toList.head? ≠ some '\uFEFF') :
    withoutMark text = text := by
  rw [withoutMark, stripMark_of_head?_ne h, String.ofList_toList]

theorem join_tokenize (text : String) :
    String.join ((tokenize text).map Token.text) = withoutMark text :=
  Cursor.join_tokens _

theorem shaped_of_mem_tokenize (text : String) : ∀ t ∈ tokenize text, t.Shaped :=
  Cursor.shaped_of_mem_tokens

/-- Only the last token can lack its closing delimiter. -/
theorem unclosed_of_mem_dropLast_tokenize (text : String) :
    ∀ t ∈ (tokenize text).dropLast, t.unclosed = false :=
  Cursor.unclosed_of_mem_dropLast_tokens

end Stylesheet
