import Stylesheet.Proofs.Parse.Advance

/-!
# Bare tokens

A statement looks at the kinds of its tokens and at the texts that are kept of them, so whatever is
made of it is made of other tokens with the same kinds and texts as well (`Token.Keeps`).

`Token.bare` leaves out the spans, and whether a comment was closed by the text or at its end: the
kind, the text as it is kept and the position remain. A state goes on in the same way with the bare
tokens of its statement (`State.cut_bare`).
-/

namespace Stylesheet

/-- Tokens are exchanged for others that have the same kinds and are kept as the same texts. -/
structure Token.Keeps (g : Token → Token) : Prop where
  kind : ∀ t, (g t).kind = t.kind
  kept : ∀ t, (g t).kept = t.kept

def Statement.map (g : Token → Token) (s : Statement) : Statement where
  first := g s.first
  more := s.more.map g

section

variable {g : Token → Token} (hg : Token.Keeps g) (before : String) (ts : List Token)
include hg

theorem keptText_map : keptText (ts.map g) = keptText ts := by
  induction ts with
  | nil => rfl
  | cons t ts ih => rw [List.map_cons, keptText_cons, keptText_cons, ih, hg.kept]

theorem splitTrailingSpace_map :
    splitTrailingSpace (ts.map g) =
      ((splitTrailingSpace ts).1.map g, (splitTrailingSpace ts).2.map g) := by
  unfold splitTrailingSpace
  rw [List.getLast?_map]
  cases ts.getLast? with
  | none => rfl
  | some t =>
    have hkind := hg.kind t
    rw [Option.map_some]
    by_cases hspace : t.kind = .space
    · simp only [hkind, hspace, if_true, List.map_dropLast, List.map_singleton]
    · simp only [hkind, hspace, if_false, List.map_nil]

theorem splitLeadingSpace_map :
    splitLeadingSpace (ts.map g) =
      ((splitLeadingSpace ts).1.map g, (splitLeadingSpace ts).2.map g) := by
  cases ts with
  | nil => rfl
  | cons t ts =>
    rw [List.map_cons, splitLeadingSpace, splitLeadingSpace, hg.kind]
    by_cases hspace : t.kind = .space
    · rw [if_pos hspace, if_pos hspace]
      rfl
    · rw [if_neg hspace, if_neg hspace]
      rfl

theorem Prelude.ofTokens_map {t : Token} (h : t.kind ≠ .comment) :
    Prelude.ofTokens before (g t) (ts.map g) = Prelude.ofTokens before t ts := by
  have htext : (g t).text = t.text := by
    rw [← Token.kept_of_kind_ne h, ← hg.kept, Token.kept_of_kind_ne (by rwa [hg.kind])]
  simp only [Prelude.ofTokens, splitLeadingSpace_map hg, splitTrailingSpace_map hg,
    keptText_map hg, htext]

theorem Selector.ofTokens_map :
    Selector.ofTokens before (ts.map g) = Selector.ofTokens before ts := by
  simp only [Selector.ofTokens, splitTrailingSpace_map hg, keptText_map hg]

theorem Declaration.ofTokens?_map :
    Declaration.ofTokens? before (ts.map g) = Declaration.ofTokens? before ts := by
  have hkind : (fun t : Token ↦ decide (t.kind ≠ .colon)) ∘ g =
      fun t ↦ decide (t.kind ≠ .colon) := by
    funext t
    rw [Function.comp_apply, hg.kind]
  unfold Declaration.ofTokens?
  rw [List.dropWhile_map, List.takeWhile_map, hkind]
  cases ts.dropWhile (·.kind ≠ .colon) with
  | nil => rfl
  | cons colon behind =>
    simp only [List.map_cons, splitTrailingSpace_map hg, splitLeadingSpace_map hg,
      keptText_map hg, keptText_append, keptText_cons, hg.kept]

theorem Declaration.ofProperty_map :
    Declaration.ofProperty before (ts.map g) = Declaration.ofProperty before ts := by
  rw [ofProperty, ofProperty, keptText_map hg]

namespace Statement

variable (s : Statement)

omit hg in
@[simp]
theorem tokens_map (g : Token → Token) : (s.map g).tokens = s.tokens.map g := by
  simp [Statement.map, tokens]

theorem isAtRule_map : (s.map g).isAtRule = s.isAtRule :=
  congrArg (· == TokenKind.atWord) (hg.kind s.first)

theorem splitSpace_map :
    (s.map g).splitSpace = (s.splitSpace.1.map g, s.splitSpace.2.map g) := by
  obtain ⟨first, more⟩ := s
  cases more with
  | nil => rfl
  | cons t more =>
    simp only [Statement.map, splitSpace, List.map_cons, hg.kind]
    by_cases hspace : t.kind = .space
    · rw [if_pos hspace, if_pos hspace]
      rfl
    · rw [if_neg hspace, if_neg hspace]
      rfl

theorem prelude_map (hrule : s.isAtRule = true) :
    Prelude.ofTokens before (s.map g).first (s.map g).more.reverse =
      Prelude.ofTokens before s.first s.more.reverse := by
  have hkind : s.first.kind ≠ .comment := by
    rw [eq_of_beq hrule]
    decide
  have hprelude := Prelude.ofTokens_map hg before s.more.reverse hkind
  rwa [List.map_reverse] at hprelude

end Statement

theorem Parse.State.leaf?_map (s : State) (statement : Statement) (ending : Ending) :
    s.leaf? (statement.map g) ending = s.leaf? statement ending := by
  unfold leaf?
  rw [Statement.tokens_map, Declaration.ofTokens?_map hg, Declaration.ofProperty_map hg,
    Statement.isAtRule_map hg]
  cases s.accepts with
  | declarations => rfl
  | rules =>
    cases hrule : statement.isAtRule with
    | false => rfl
    | true => simp only [if_true, statement.prelude_map hg _ hrule]

end

/-! ## Bare tokens -/

namespace Token

def bare (t : Token) : Token where
  kind := t.kind
  text := t.kept
  span := ⟨0, 0⟩
  start := t.start
  stop := t.start
  unclosed := false

theorem keeps_bare : Keeps bare where
  kind _ := rfl
  kept _ := kept_of_closed rfl

end Token

def Statement.bare (s : Statement) : Statement where
  first := s.first.bare
  more := s.more.map Token.bare

namespace Parse.State

def bare (s : State) : State :=
  { s with statement := s.statement.map Statement.bare }

variable (context : Context) (s : State) (statement : Statement) (ending : Ending)

@[simp]
theorem frames_bare : s.bare.frames = s.frames := rfl

@[simp]
theorem ended_bare : s.bare.ended = s.ended := rfl

theorem conclude_bare :
    s.conclude context statement.bare ending = s.conclude context statement ending := by
  have hbare : statement.bare = statement.map Token.bare := rfl
  unfold conclude keepStatement
  rw [hbare, leaf?_map Token.keeps_bare, Statement.tokens_map, keptText_map Token.keeps_bare]
  rfl

theorem cut_bare : s.bare.cut context ending = s.cut context ending := by
  obtain ⟨scope, frames, statement, ended, log⟩ := s
  cases statement with
  | none => rfl
  | some statement =>
    have hbare : statement.bare = statement.map Token.bare := rfl
    have hconclude := conclude_bare context ⟨scope, frames, none, ended, log⟩
      statement.splitSpace.1 ending
    simp only [bare, cut, Option.map_some, hbare, Statement.splitSpace_map Token.keeps_bare,
      keptText_map Token.keeps_bare]
    exact congrArg (addText · _) hconclude

end Parse.State

end Stylesheet
