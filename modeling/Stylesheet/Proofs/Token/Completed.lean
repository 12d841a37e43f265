import Stylesheet.Proofs.Token.Extension

/-!
# Tokens of a completed text

A text is completed by the delimiters that are missing at its end: that of a comment, and a brace
for each block. All of its tokens but the last stay as they are (`Cursor.exists_last`).

Some last tokens swallow what is put behind them. Any other is alike in the completed text, where a
token of its own stands behind it for each brace (`Cursor.exists_tokens_completed`).
-/

namespace Stylesheet

open Text

variable {behind : List Char}

/-- None of the delimiters is an opening bracket. -/
theorem Memory.learn_append (memory : Memory) (offset : Nat) (cs : List Char)
    (hbehind : Closing behind) : memory.learn offset (cs ++ behind) = memory.learn offset cs := by
  cases cs with
  | cons c cs =>
    have hlookahead := Bracket.lookahead_append offset (c :: cs) hbehind
    rw [List.cons_append] at hlookahead ⊢
    rw [learn, learn, hlookahead]
  | nil =>
    cases behind with
    | nil => rfl
    | cons c behind =>
      have hopener : Bracket.isOpener c = false := by
        rcases hbehind c List.mem_cons_self with rfl | rfl | rfl <;> rfl
      have hbracket : (Bracket.isOpener c && !memory.recalls offset) = false := by
        rw [hopener, Bool.false_and]
      exact if_neg (by rw [hbracket]; exact Bool.false_ne_true)

namespace Token

/-- What is missing at the end of the token, if it is the last one. -/
def ending (t : Token) : List Char :=
  if t.kind = .comment ∧ t.unclosed then ['*', '/'] else []

/-- Braces that are put behind the token become part of it. -/
def swallows (t : Token) : Bool :=
  match t.kind with
  | .string => t.unclosed
  | .word | .atWord => escapes t.text.toList
  | _ => false

/-- The tokens are of use for the same nodes. Only a comment can be alike to another token, which
has its delimiter. -/
structure Alike (t u : Token) : Prop where
  kind : u.kind = t.kind
  kept : u.kept = t.kept
  start : u.start = t.start
  same : t.kind ≠ .comment → u = t

theorem closing_ending (t : Token) (blocks : Nat) :
    Closing (t.ending ++ List.replicate blocks '}') := by
  intro c hc
  rcases List.mem_append.mp hc with hending | hbrace
  · unfold ending at hending
    split at hending
    · simp only [List.mem_cons, List.not_mem_nil, or_false] at hending
      exact .inr hending
    · contradiction
  · exact .inl (List.eq_of_mem_replicate hbrace)

theorem Alike.refl (t : Token) : t.Alike t :=
  ⟨rfl, rfl, rfl, fun _ ↦ rfl⟩

/-- What the token becomes, and the tokens behind it, where the text is completed. -/
structure Completes (t : Token) (blocks : Nat) (last : Token) (braces : List Token) : Prop where
  kind : last.kind = t.kind
  kind_braces : ∀ u ∈ braces, u.kind = .closeCurly
  alike : t.swallows = false → t.Alike last ∧ braces.length = blocks
  fewer : t.swallows = true → 0 < blocks → braces.length < blocks

end Token

namespace Cursor

variable {c : Cursor} {lexeme : Lexeme c.rest}

def extend (c : Cursor) (behind : List Char) : Cursor :=
  { c with rest := c.rest ++ behind }

theorem extend_nil (c : Cursor) : c.extend [] = c := by
  rw [extend, List.append_nil]

theorem tokens_of_reads (h : Lexeme.Reads c.unmatched c.offset c.rest lexeme) :
    c.tokens = c.token lexeme :: (c.pass lexeme).tokens :=
  tokens_eq_cons (lexeme?_eq_some_iff.mpr h)

section

variable {longer : Lexeme (c.extend behind).rest} (h : lexeme.Extends behind longer)
include h

theorem token_extend : (c.extend behind).token longer = c.token lexeme := by
  rw [token, token, h.kind, h.cut.taken, h.cut.closed]
  rfl

theorem move_extend : (c.extend behind).move longer.cut = (c.move lexeme.cut).extend behind := by
  rw [move, move, h.cut.taken, h.cut.rest]
  rfl

theorem pass_extend (hbehind : Closing behind) :
    (c.extend behind).pass longer = (c.pass lexeme).extend behind := by
  have hmove := move_extend h
  have hlearn (d : Cursor) : (d.extend behind).learn = d.learn.extend behind := by
    rw [learn, extend, Memory.learn_append _ _ _ hbehind]
    rfl
  unfold pass
  rw [h.kind]
  cases lexeme.kind with
  | word => exact (congrArg learn hmove).trans (hlearn _)
  | other =>
    have hmemory := congrArg unmatched (hlearn c)
    dsimp only
    unfold move
    rw [h.cut.taken, h.cut.rest, hmemory]
    rfl
  | _ => exact hmove

theorem tokens_extend (hlonger : Lexeme.Reads (c.extend behind).unmatched (c.extend behind).offset
    (c.extend behind).rest longer) (hbehind : Closing behind) :
    (c.extend behind).tokens = c.token lexeme :: ((c.pass lexeme).extend behind).tokens := by
  rw [tokens_of_reads hlonger, token_extend h, pass_extend h hbehind]

end

/-- Only the last token sees what is put behind the text. -/
theorem exists_last (c : Cursor) (hrest : c.rest ≠ []) :
    ∃ (front : List Token) (d : Cursor) (lexeme : Lexeme d.rest),
      Lexeme.Reads d.unmatched d.offset d.rest lexeme ∧ lexeme.cut.rest = [] ∧
      c.tokens = front ++ [d.token lexeme] ∧
      ∀ behind, Closing behind → (c.extend behind).tokens = front ++ (d.extend behind).tokens := by
  apply tokens_induction (motive := fun c ts ↦ c.rest ≠ [] →
    ∃ (front : List Token) (d : Cursor) (lexeme : Lexeme d.rest),
      Lexeme.Reads d.unmatched d.offset d.rest lexeme ∧ lexeme.cut.rest = [] ∧
      ts = front ++ [d.token lexeme] ∧
      ∀ behind, Closing behind → (c.extend behind).tokens = front ++ (d.extend behind).tokens)
    _ _ c hrest
  · intro c hempty hrest
    contradiction
  · intro c lexeme hread ih _
    by_cases hlast : lexeme.cut.rest = []
    · have hnone : (c.pass lexeme).tokens = [] := tokens_of_rest_nil (by rw [pass_rest, hlast])
      exact ⟨[], c, lexeme, hread, hlast, by rw [hnone]; rfl, fun _ _ ↦ rfl⟩
    have hclosed : lexeme.cut.closed = true := by
      rw [← Bool.not_eq_false]
      intro hopen
      exact hlast (hread.rest_of_not_closed hopen).1
    obtain ⟨front, d, found, hfound, hend, htokens, hextend⟩ := ih (by rwa [pass_rest])
    refine ⟨c.token lexeme :: front, d, found, hfound, hend, by rw [htokens]; rfl, ?_⟩
    intro behind hbehind
    obtain ⟨longer, hlonger, hextends⟩ := hread.exists_extends hbehind hclosed (.inl hlast)
    rw [tokens_extend hextends hlonger hbehind, hextend behind hbehind]
    rfl

theorem tokens_braces {braces : Nat} (h : c.rest = List.replicate braces '}') :
    c.tokens.length = braces ∧ ∀ t ∈ c.tokens, t.kind = .closeCurly := by
  induction braces generalizing c with
  | zero =>
    rw [tokens_of_rest_nil h]
    exact ⟨rfl, fun _ ht ↦ absurd ht List.not_mem_nil⟩
  | succ braces ih =>
    obtain ⟨rest, offset, position, unmatched⟩ := c
    obtain rfl : rest = '}' :: List.replicate braces '}' := h
    let c : Cursor := ⟨'}' :: List.replicate braces '}', offset, position, unmatched⟩
    let brace : Lexeme c.rest := ⟨.closeCurly, Cut.characters 1 _, Lexeme.single_taken_ne_nil _ _⟩
    have htokens : c.tokens = c.token brace :: (c.pass brace).tokens :=
      tokens_of_reads (.single rfl)
    obtain ⟨hlength, hkinds⟩ := @ih (c.pass brace) (pass_rest _ _)
    rw [htokens]
    exact ⟨congrArg (· + 1) hlength, List.forall_mem_cons.mpr ⟨rfl, hkinds⟩⟩

/-! ## The last token -/

section

variable (hread : Lexeme.Reads c.unmatched c.offset c.rest lexeme) (hrest : lexeme.cut.rest = [])
variable (blocks : Nat)
include hread

theorem exists_completed_comment (hkind : lexeme.kind = .comment)
    (hopen : lexeme.cut.closed = false) :
    ∃ last braces, (c.extend ('*' :: '/' :: List.replicate blocks '}')).tokens = last :: braces ∧
      (c.token lexeme).Completes blocks last braces := by
  obtain ⟨longer, hlonger, hsame, htaken, hleft, hclosed⟩ :=
    hread.exists_comment hkind hopen (List.replicate blocks '}')
  let d := c.extend ('*' :: '/' :: List.replicate blocks '}')
  obtain ⟨hlength, hbraces⟩ := @tokens_braces (@pass d longer) blocks
    ((pass_rest d longer).trans hleft)
  have hkept : (@token d longer).kept = (c.token lexeme).kept := by
    have hfirst : (c.token lexeme).kept = String.ofList lexeme.cut.taken ++ "*/" := by
      simp [Token.kept, token, hkind, hopen]
    have hsecond : (@token d longer).kept = String.ofList longer.cut.taken := by
      simp [Token.kept, token, hsame, hclosed]
    rw [hfirst, hsecond, htaken, String.ofList_append]
  refine ⟨@token d longer, _, @tokens_of_reads d longer hlonger, hsame.trans hkind.symm, hbraces,
    ?_, ?_⟩
  · intro _
    exact ⟨⟨hsame.trans hkind.symm, hkept, rfl, fun hother ↦ absurd hkind hother⟩, hlength⟩
  · intro hswallows
    simp [Token.swallows, token, hkind] at hswallows

theorem exists_completed_string (hkind : lexeme.kind = .string)
    (hopen : lexeme.cut.closed = false) :
    ∃ last braces, (c.extend (List.replicate blocks '}')).tokens = last :: braces ∧
      (c.token lexeme).Completes blocks last braces := by
  have hbehind : Closing (List.replicate blocks '}') := fun _ hmem ↦
    .inl (List.eq_of_mem_replicate hmem)
  obtain ⟨longer, hlonger, hsame, hleft⟩ := hread.exists_string hkind hopen hbehind
  let d := c.extend (List.replicate blocks '}')
  have hnone : (@pass d longer).tokens = [] :=
    tokens_of_rest_nil ((pass_rest d longer).trans hleft)
  refine ⟨@token d longer, _, @tokens_of_reads d longer hlonger, hsame.trans hkind.symm, ?_, ?_, ?_⟩
  · rw [hnone]
    exact fun _ hmem ↦ absurd hmem List.not_mem_nil
  · intro hswallows
    simp [Token.swallows, token, hkind, hopen] at hswallows
  · intro _ hpos
    rw [hnone]
    exact hpos

include hrest

theorem exists_completed_escape (hkind : lexeme.kind = .word ∨ lexeme.kind = .atWord)
    (hescapes : escapes lexeme.cut.taken = true) :
    ∃ last braces, (c.extend (List.replicate (blocks + 1) '}')).tokens = last :: braces ∧
      (c.token lexeme).Completes (blocks + 1) last braces := by
  obtain ⟨longer, hlonger, hsame, htaken, hleft⟩ :=
    hread.exists_escape hkind hrest hescapes blocks
  let d := c.extend (List.replicate (blocks + 1) '}')
  obtain ⟨hlength, hbraces⟩ := @tokens_braces (@pass d longer) blocks
    ((pass_rest d longer).trans hleft)
  refine ⟨@token d longer, _, @tokens_of_reads d longer hlonger, hsame, hbraces, ?_, ?_⟩
  · intro hswallows
    have hlast : (c.token lexeme).swallows = true := by
      rcases hkind with hkind | hkind <;> simp [Token.swallows, token, hkind, hescapes]
    rw [hlast] at hswallows
    contradiction
  · intro _ _
    rw [hlength]
    exact Nat.lt_succ_self blocks

theorem exists_completed_same (hclosed : lexeme.cut.closed = true)
    (hkeeps : blocks ≠ 0 → (c.token lexeme).swallows = false) :
    ∃ last braces, (c.extend (List.replicate blocks '}')).tokens = last :: braces ∧
      (c.token lexeme).Completes blocks last braces := by
  cases blocks with
  | zero =>
    have hnone : (c.pass lexeme).tokens = [] := tokens_of_rest_nil (by rw [pass_rest, hrest])
    refine ⟨c.token lexeme, [], ?_, rfl, ?_, fun _ ↦ ⟨.refl _, rfl⟩, fun _ hpos ↦ absurd hpos ?_⟩
    · rw [List.replicate_zero, extend_nil, tokens_of_reads hread, hnone]
    · exact fun _ hmem ↦ absurd hmem List.not_mem_nil
    · exact Nat.lt_irrefl 0
  | succ blocks =>
    have hswallows := hkeeps (Nat.succ_ne_zero blocks)
    have hbehind : Closing (List.replicate (blocks + 1) '}') := fun _ hmem ↦
      .inl (List.eq_of_mem_replicate hmem)
    have hescapes (hkind : lexeme.kind = .word ∨ lexeme.kind = .atWord) :
        escapes lexeme.cut.taken = false := by
      rcases hkind with hkind | hkind <;> simpa [Token.swallows, token, hkind] using hswallows
    obtain ⟨longer, hlonger, hextends⟩ :=
      hread.exists_extends hbehind hclosed (.inr ⟨⟨_, rfl⟩, hescapes⟩)
    obtain ⟨hlength, hbraces⟩ := @tokens_braces
      ((c.pass lexeme).extend (List.replicate (blocks + 1) '}')) (blocks + 1)
      (by rw [extend, pass_rest, hrest, List.nil_append])
    refine ⟨_, _, tokens_extend hextends hlonger hbehind, rfl, hbraces,
      fun _ ↦ ⟨.refl _, hlength⟩, ?_⟩
    intro hlast
    rw [hswallows] at hlast
    contradiction

/-- The last token, together with what completes the text. -/
theorem exists_completed :
    ∃ last braces,
      (c.extend ((c.token lexeme).ending ++ List.replicate blocks '}')).tokens = last :: braces ∧
      (c.token lexeme).Completes blocks last braces := by
  cases hclosed : lexeme.cut.closed with
  | false =>
    rcases (hread.rest_of_not_closed hclosed).2 with hkind | hkind
    · have hending : (c.token lexeme).ending = [] := by simp [Token.ending, token, hkind]
      rw [hending]
      exact exists_completed_string hread blocks hkind hclosed
    · have hending : (c.token lexeme).ending = ['*', '/'] := by
        simp [Token.ending, token, hkind, hclosed]
      rw [hending]
      exact exists_completed_comment hread blocks hkind hclosed
  | true =>
    have hending : (c.token lexeme).ending = [] := by simp [Token.ending, token, hclosed]
    rw [hending, List.nil_append]
    cases hswallows : (c.token lexeme).swallows with
    | false => exact exists_completed_same hread hrest blocks hclosed fun _ ↦ hswallows
    | true =>
      cases blocks with
      | zero => exact exists_completed_same hread hrest 0 hclosed fun hne ↦ absurd rfl hne
      | succ blocks =>
        have hescapes : (lexeme.kind = .word ∨ lexeme.kind = .atWord) ∧
            escapes lexeme.cut.taken = true := by
          cases hkind : lexeme.kind <;> simp_all [Token.swallows, token]
        exact exists_completed_escape hread hrest blocks hescapes.1 hescapes.2

end

/-- All tokens of a completed text. -/
theorem exists_tokens_completed (c : Cursor) (hrest : c.rest ≠ []) :
    ∃ front t, c.tokens = front ++ [t] ∧ ∀ blocks, ∃ last braces,
      (c.extend (t.ending ++ List.replicate blocks '}')).tokens = front ++ last :: braces ∧
        t.Completes blocks last braces := by
  obtain ⟨front, d, lexeme, hread, hlast, htokens, hextend⟩ := c.exists_last hrest
  refine ⟨front, d.token lexeme, htokens, fun blocks ↦ ?_⟩
  obtain ⟨last, braces, hcompleted, hcompletes⟩ := exists_completed hread hlast blocks
  refine ⟨last, braces, ?_, hcompletes⟩
  rw [hextend _ (Token.closing_ending _ blocks), hcompleted]

end Cursor

/-- A byte order mark plays no part for the tokens. -/
theorem tokenize_congr {text other : String} (h : stripMark other.toList = stripMark text.toList) :
    tokenize other = tokenize text := by
  rw [tokenize, tokenize, Cursor.ofString, Cursor.ofString, h]

/-- What the tokens of a text become where the text is completed. -/
theorem exists_tokenize_completed (text : String) (h : tokenize text ≠ []) :
    ∃ front t, tokenize text = front ++ [t] ∧ ∀ (blocks : Nat) (completed : String),
      stripMark completed.toList =
        stripMark text.toList ++ (t.ending ++ List.replicate blocks '}') →
      ∃ last braces, tokenize completed = front ++ last :: braces ∧
        t.Completes blocks last braces := by
  have hrest : (Cursor.ofString text).rest ≠ [] := by
    intro hempty
    exact h (Cursor.tokens_of_rest_nil hempty)
  obtain ⟨front, t, htokens, hall⟩ := (Cursor.ofString text).exists_tokens_completed hrest
  refine ⟨front, t, htokens, fun blocks completed hcompleted ↦ ?_⟩
  obtain ⟨last, braces, hlonger, hcompletes⟩ := hall blocks
  refine ⟨last, braces, ?_, hcompletes⟩
  rw [tokenize, Cursor.ofString, hcompleted]
  exact hlonger

end Stylesheet
