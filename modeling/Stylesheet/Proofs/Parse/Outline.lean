import Stylesheet.Proofs.Parse.Acceptance

/-!
# Where lenient parsing fails

The outline of a text is what can be told from its braces, its semicolons and the first token of
each statement, without reading any statement to its end. The outline goes along with the parse
(`State.outline_advance`), whatever is repaired on the way, and it alone decides whether a token
can be read (`State.fatal?_eq`). So lenient parsing fails at the first token that the outline
refuses, and nowhere else (`parse_lenient_eq_error_iff`).
-/

namespace Stylesheet

namespace Parse

structure Outline where
  /-- What the open blocks hold, the innermost first. -/
  blocks : List BodyKind := []
  /-- The first token behind the last brace or semicolon, save white space and comments. -/
  first : Option Token := none
  /-- A brace has come that closes no block. -/
  stopped : Bool := false

namespace Outline

/-- What a block holds that is opened here. -/
def opened (o : Outline) : BodyKind :=
  match o.first with
  | some t => if t.kind = .atWord then bodyKind t.atName else .declarations
  | none => .declarations

def after (o : Outline) (t : Token) : Outline :=
  if o.stopped then o
  else
    match t.kind with
    | .space | .comment => o
    | .semicolon => { o with first := none }
    | .openCurly => { blocks := o.opened :: o.blocks }
    | .closeCurly =>
      match o.blocks with
      | [] => { stopped := true }
      | _ :: outer => { blocks := outer }
    | .string | .word | .atWord | .colon | .other => { o with first := o.first.or (some t) }

/-- There are no blocks among declarations, and no statement starts with an at-sign alone. -/
def refusal? (o : Outline) (t : Token) : Option ErrorKind :=
  if o.stopped then none
  else if t.kind = .openCurly ∧ o.blocks.head? = some .declarations then
    some .unexpectedOpenBrace
  else if t.kind = .atWord ∧ o.first = none ∧ t.text = "@" then some .atRuleWithoutName
  else none

/-- The outline of a text with these tokens. -/
def ofTokens (ts : List Token) : Outline :=
  ts.foldl after {}

theorem refusal?_eq_some {o : Outline} {t : Token} {kind : ErrorKind}
    (h : o.refusal? t = some kind) :
    kind = .unexpectedOpenBrace ∨ kind = .atRuleWithoutName := by
  unfold refusal? at h
  split at h
  · contradiction
  · split at h
    · exact .inl (Option.some.inj h).symm
    · split at h
      · exact .inr (Option.some.inj h).symm
      · contradiction

/-- The token is the first that is refused, and this is why. -/
def Refuses (ts : List Token) (kind : ErrorKind) (t : Token) : Prop :=
  ∃ front behind, ts = front ++ t :: behind ∧ (ofTokens front).refusal? t = some kind ∧
    ∀ earlier u later, front = earlier ++ u :: later → (ofTokens earlier).refusal? u = none

end Outline

namespace State

variable (context : Context) (s : State) (t : Token)

def outline (s : State) : Outline where
  blocks := s.bodies
  first := s.statement.map Statement.first
  stopped := s.ended

theorem outline_hold :
    (s.hold t).outline = { s.outline with first := s.outline.first.or (some t) } := by
  obtain ⟨scope, frames, statement, ended, log⟩ := s
  cases statement <;> rfl

/-- What is made of a block that is opened depends on the first token of its head. -/
theorem body_blockHead : (s.blockHead context t).2.body = s.outline.opened := by
  unfold blockHead outline Outline.opened
  cases s.statement with
  | none => rfl
  | some statement =>
    dsimp only [Option.map_some]
    by_cases hkind : statement.first.kind = .atWord
    · have hrule : statement.isAtRule = true := beq_iff_eq.mpr hkind
      rw [if_pos hrule, if_pos hkind]
      rfl
    · have hrule : ¬statement.isAtRule = true := fun h ↦ hkind (eq_of_beq h)
      rw [if_neg hrule, if_neg hkind]
      rfl

theorem outline_closeBlock {frame : Frame} {frames : List Frame}
    (hframes : s.frames = frame :: frames) (hopen : s.ended = false) :
    (s.cut context .closeCurly).closeBlock.outline =
      { blocks := frames.map fun frame ↦ frame.head.body } := by
  have hcut : (s.cut context .closeCurly).frames = frame :: frames := by
    rw [frames_cut, hframes]
  have hstatement : (s.cut context .closeCurly).statement = none := by rw [cut_eq]
  have hended : (s.cut context .closeCurly).ended = false := by rw [cut_eq, hopen]
  unfold closeBlock
  rw [hcut]
  simp [outline, bodies, hstatement, hended]

/-- Each token takes the outline on, whatever becomes of the text that it is in. -/
theorem outline_advance :
    (s.advance context t).outline = s.outline.after t := by
  cases hended : s.ended with
  | true =>
    have hadvance : s.advance context t = s.addText t.text := by rw [advance, hended, if_pos rfl]
    have hafter : s.outline.after t = s.outline := by
      rw [Outline.after, outline, hended, if_pos rfl]
    rw [hadvance, hafter]
    rfl
  | false =>
    have hopen : ¬s.ended = true := ne_true_of_eq_false hended
    have hrunning : ¬s.outline.stopped = true := hopen
    rw [advance, Outline.after, if_neg hopen, if_neg hrunning]
    cases hkind : t.kind with
    | string | word | atWord | colon | other => exact outline_hold s t
    | space =>
      dsimp only
      unfold readSpace
      obtain ⟨scope, frames, statement, ended, log⟩ := s
      cases statement <;> rfl
    | comment =>
      dsimp only
      unfold addComment
      obtain ⟨scope, frames, statement, ended, log⟩ := s
      cases statement <;> rfl
    | openCurly =>
      have hbody := body_blockHead context s t
      simp [outline, openBlock, bodies, hended] at hbody ⊢
      exact hbody
    | semicolon =>
      cases hstatement : s.statement with
      | none =>
        dsimp only
        simp [outline, addText, bodies, hstatement]
      | some statement =>
        dsimp only
        rw [conclude_eq]
        rfl
    | closeCurly =>
      cases hframes : s.frames with
      | nil => simp [outline, bodies, addText, hframes]
      | cons frame frames =>
        dsimp only
        rw [outline_closeBlock context s hframes hended]
        simp [outline, bodies, hframes]

/-- The outline knows which tokens cannot be read. -/
theorem fatal?_eq : s.fatal? t = (s.outline.refusal? t).map (·, t.start) := by
  have haccepts : s.accepts = .declarations ↔ s.outline.blocks.head? = some .declarations := by
    rw [accepts_eq]
    show s.bodies.headD .rules = .declarations ↔ s.bodies.head? = some .declarations
    cases s.bodies with
    | nil => simp
    | cons body outer => simp
  have hfirst : s.statement.isNone = true ↔ s.outline.first = none := by
    simp [outline]
  have hended : s.outline.stopped = s.ended := rfl
  rw [fatal?, Outline.refusal?, hended]
  simp only [haccepts, hfirst]
  split
  · rfl
  · split
    · rfl
    · split <;> rfl

/-- Reading ends at the first token that the outline refuses. -/
theorem fatalIn?_eq_some_iff (ts : List Token) (kind : ErrorKind) (p : Position) :
    s.fatalIn? context ts = some (kind, p) ↔
      ∃ front t behind, ts = front ++ t :: behind ∧
        (front.foldl Outline.after s.outline).refusal? t = some kind ∧
        (∀ earlier u later, front = earlier ++ u :: later →
          (earlier.foldl Outline.after s.outline).refusal? u = none) ∧
        p = t.start := by
  induction ts generalizing s with
  | nil => simp [fatalIn?]
  | cons t ts ih =>
    rw [fatalIn?, fatal?_eq]
    cases hrefusal : s.outline.refusal? t with
    | some found =>
      constructor
      · intro h
        obtain ⟨rfl, rfl⟩ := Prod.mk.inj (Option.some.inj h)
        exact ⟨[], t, ts, rfl, hrefusal, by simp, rfl⟩
      · rintro ⟨front, u, behind, hts, hu, hearlier, rfl⟩
        cases front with
        | nil =>
          obtain ⟨rfl, rfl⟩ := List.cons.inj hts
          rw [List.foldl_nil, hrefusal] at hu
          rw [Option.some.inj hu]
          rfl
        | cons first front =>
          obtain ⟨rfl, rfl⟩ := List.cons.inj hts
          have hnone : s.outline.refusal? t = none := hearlier [] t front rfl
          rw [hrefusal] at hnone
          contradiction
    | none =>
      rw [Option.map_none, Option.none_or, ih, outline_advance]
      constructor
      · rintro ⟨front, u, behind, rfl, hu, hearlier, rfl⟩
        refine ⟨t :: front, u, behind, rfl, hu, fun earlier v later heq ↦ ?_, rfl⟩
        cases earlier with
        | nil =>
          obtain ⟨rfl, rfl⟩ := List.cons.inj heq
          exact hrefusal
        | cons first earlier =>
          obtain ⟨rfl, rfl⟩ := List.cons.inj heq
          exact hearlier earlier v later rfl
      · rintro ⟨front, u, behind, hts, hu, hearlier, rfl⟩
        cases front with
        | nil =>
          obtain ⟨rfl, rfl⟩ := List.cons.inj hts
          rw [List.foldl_nil, hrefusal] at hu
          contradiction
        | cons first front =>
          obtain ⟨rfl, rfl⟩ := List.cons.inj hts
          exact ⟨front, u, behind, rfl, hu,
            fun earlier v later heq ↦ hearlier (t :: earlier) v later (heq ▸ rfl), rfl⟩

end State

end Parse

open Parse

/-- Lenient parsing fails at the first token that the outline of the text refuses, and with the
reason for that: a block among declarations, or a statement that starts with an at-sign alone. -/
theorem parse_lenient_eq_error_iff (path : Option String) (text : String) (e : ParseError) :
    (parse { path } text = .error e ↔
      ∃ kind t, Outline.Refuses (tokenize text) kind t ∧
        e = ⟨kind, t.start, text, (Options.mk false path).file⟩) ∧
    (parse { path } text = .error e →
      e.kind = .unexpectedOpenBrace ∨ e.kind = .atRuleWithoutName) := by
  have hfails : parse { path } text = .error e ↔
      ∃ kind t, Outline.Refuses (tokenize text) kind t ∧
        e = ⟨kind, t.start, text, (Options.mk false path).file⟩ := by
    have hrefused (kind : ErrorKind) (p : Position) :=
      State.fatalIn?_eq_some_iff (Options.mk false path).context {} (tokenize text) kind p
    rw [parse, read_lenient _ text rfl]
    cases hfatal : State.fatalIn? (Options.mk false path).context {} (tokenize text) with
    | none =>
      simp only [hfatal, reduceCtorEq, false_iff] at hrefused ⊢
      rintro ⟨kind, t, ⟨front, behind, hts, ht, hearlier⟩, -⟩
      exact hrefused kind t.start ⟨front, t, behind, hts, ht, hearlier, rfl⟩
    | some fatal =>
      obtain ⟨kind, p⟩ := fatal
      constructor
      · intro h
        obtain ⟨front, t, behind, hts, ht, hearlier, rfl⟩ := (hrefused kind p).mp hfatal
        exact ⟨kind, t, ⟨front, behind, hts, ht, hearlier⟩, (Except.error.inj h).symm⟩
      · rintro ⟨kind', t, ⟨front, behind, hts, ht, hearlier⟩, rfl⟩
        have hsome := (hrefused kind' t.start).mpr ⟨front, t, behind, hts, ht, hearlier, rfl⟩
        rw [hfatal] at hsome
        obtain ⟨rfl, rfl⟩ := Prod.mk.inj (Option.some.inj hsome)
        rfl
  refine ⟨hfails, fun h ↦ ?_⟩
  obtain ⟨kind, t, ⟨front, behind, -, ht, -⟩, rfl⟩ := hfails.mp h
  exact Outline.refusal?_eq_some ht

end Stylesheet
