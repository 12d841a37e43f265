import Stylesheet.Proofs.Parse.Grammar
import Stylesheet.Proofs.Parse.Run

/-!
# What strict parsing accepts

Strict parsing succeeds on the texts whose tokens are all closed and derive from the grammar
(`exists_strict_iff`). The open blocks and the statement that has been started tell what can still
follow, and a step takes this from a list of tokens to its tail (`State.faithful`).
-/

namespace Stylesheet

open Grammar

namespace Parse.State

variable {context : Context} {s : State} {t : Token} {ts : List Token} {statement : Statement}
variable {ending : Ending} {inner : BodyKind}

/-- The lists that the open blocks hold, the innermost first. -/
def bodies (s : State) : List BodyKind :=
  s.frames.map fun frame ↦ frame.head.body

/-- The tokens are read to their end without a failure or a repair. -/
structure Accepted (context : Context) (s : State) (ts : List Token) : Prop where
  fatal : s.fatalIn? context ts = none
  repairs : s.repairsIn context ts = []
  final : (ts.foldl (advance context) s).finalRefusal? = none

theorem accepted_nil : Accepted context s [] ↔ s.finalRefusal? = none :=
  ⟨fun h ↦ h.final, fun h ↦ ⟨rfl, rfl, h⟩⟩

theorem accepted_cons : Accepted context s (t :: ts) ↔
    s.fatal? t = none ∧ s.repair? t = none ∧ Accepted context (s.advance context t) ts := by
  constructor
  · rintro ⟨hfatal, hrepairs, hfinal⟩
    obtain ⟨hfirst, hlater⟩ := Option.or_eq_none_iff.mp hfatal
    rw [repairsIn, hfirst, if_neg (by simp)] at hrepairs
    obtain ⟨hrepair, hrest⟩ := List.append_eq_nil_iff.mp hrepairs
    exact ⟨hfirst, Option.toList_eq_nil_iff.mp hrepair, hlater, hrest, hfinal⟩
  · rintro ⟨hfirst, hrepair, h⟩
    refine ⟨?_, ?_, h.final⟩
    · rw [fatalIn?, hfirst, h.fatal]
      rfl
    · rw [repairsIn, hfirst, hrepair, h.repairs]
      rfl

theorem accepts_eq (s : State) : s.accepts = s.bodies.headD .rules := by
  unfold accepts bodies
  cases s.frames <;> rfl

/-! ## Statements -/

theorem heldTokens_ne_nil (h : s.statement = some statement) : s.heldTokens ≠ [] := by
  rw [heldTokens_some h]
  exact List.cons_ne_nil _ _

theorem starts_first (hheld : Held statement.tokens) :
    statement.first.StartsAt ∨ statement.first.StartsSelector :=
  hheld.starts _ rfl

theorem isAtRule_iff (hheld : Held statement.tokens) :
    statement.isAtRule = true ↔ statement.first.StartsAt := by
  refine ⟨fun h ↦ ?_, fun h ↦ beq_iff_eq.mpr h.1⟩
  have hkind : statement.first.kind = .atWord := eq_of_beq h
  refine (starts_first hheld).resolve_right fun hselector ↦ ?_
  rcases hselector with h | h | h | h <;> simp [hkind] at h

theorem isStatement_tokens_iff (kind : BodyKind) (hheld : Held statement.tokens) :
    IsStatement kind statement.tokens ↔
      match kind with
      | .rules => statement.first.StartsAt
      | .declarations => ∃ colon ∈ statement.tokens, colon.kind = .colon := by
  cases kind with
  | rules => exact ⟨fun h ↦ h.1, fun h ↦ ⟨h, hheld.plain⟩⟩
  | declarations =>
    exact ⟨fun h ↦ h.2.2, fun h ↦ ⟨starts_first hheld, hheld.plain, h⟩⟩

theorem isSome_leaf?_iff (hheld : Held statement.tokens)
    (hending : ending ≠ .endOfText ∨ s.accepts = .rules) :
    (s.leaf? statement ending).isSome ↔ IsStatement s.accepts statement.tokens := by
  rw [isStatement_tokens_iff s.accepts hheld]
  unfold leaf?
  cases haccepts : s.accepts with
  | rules =>
    rw [← isAtRule_iff hheld]
    cases statement.isAtRule <;> simp
  | declarations =>
    have hopen : ending ≠ .endOfText := hending.resolve_right (by simp [haccepts])
    have hnone := Declaration.ofTokens?_eq_none_iff s.scope.pending statement.tokens
    cases hdeclaration : Declaration.ofTokens? s.scope.pending statement.tokens with
    | some d =>
      rw [hdeclaration] at hnone
      simpa using hnone
    | none =>
      have hcolons := hnone.mp hdeclaration
      simpa [hopen] using hcolons

theorem keeping?_eq_none_iff : s.keeping? statement ending = none ↔
    (s.leaf? statement ending).isSome := by
  unfold keeping?
  cases s.leaf? statement ending <;> simp

/-- White space at the end makes no difference to a statement. -/
theorem held_splitSpace (h : Held statement.tokens) : Held statement.splitSpace.1.tokens := by
  refine ⟨fun t ht ↦ h.plain t ?_, fun t ht ↦ ?_⟩
  · rw [← Statement.tokens_splitSpace]
    exact List.mem_append_left _ ht
  · obtain rfl := Option.mem_some_iff.mp ht
    rw [Statement.first_splitSpace]
    exact starts_first h

theorem isStatement_splitSpace (kind : BodyKind) (h : Held statement.tokens) :
    IsStatement kind statement.splitSpace.1.tokens ↔ IsStatement kind statement.tokens := by
  rw [isStatement_tokens_iff kind h, isStatement_tokens_iff kind (held_splitSpace h)]
  cases kind with
  | rules => rw [Statement.first_splitSpace]
  | declarations =>
    rw [← Statement.tokens_splitSpace statement]
    refine ⟨fun ⟨colon, hmem, hcolon⟩ ↦ ⟨colon, List.mem_append_left _ hmem, hcolon⟩, ?_⟩
    rintro ⟨colon, hmem, hcolon⟩
    obtain hmem | hmem := List.mem_append.mp hmem
    · exact ⟨colon, hmem, hcolon⟩
    · simp [Statement.kind_of_mem_splitSpace hmem] at hcolon

theorem cutRepair?_eq_none_iff (ending : Ending) (hheld : Held s.heldTokens)
    (hending : ending ≠ .endOfText ∨ s.accepts = .rules) :
    s.cutRepair? ending = none ↔ s.heldTokens = [] ∨ IsStatement s.accepts s.heldTokens := by
  unfold cutRepair?
  cases hstatement : s.statement with
  | none => simp [heldTokens_none hstatement]
  | some statement =>
    rw [heldTokens_some hstatement] at hheld ⊢
    have hne : statement.tokens ≠ [] := List.cons_ne_nil _ _
    rw [Option.bind_some, keeping?_eq_none_iff, isSome_leaf?_iff (held_splitSpace hheld) hending,
      isStatement_splitSpace s.accepts hheld]
    simp [hne]

theorem opens_iff (context : Context) (brace : Token) (hheld : Held s.heldTokens) :
    Opens s.heldTokens inner ↔ inner = (s.blockHead context brace).2.body := by
  unfold blockHead
  cases hstatement : s.statement with
  | none =>
    rw [heldTokens_none hstatement]
    constructor
    · intro h
      cases h with
      | rule h => exact h.elim
      | bare => rfl
    · rintro rfl
      exact .bare
  | some statement =>
    rw [heldTokens_some hstatement] at hheld ⊢
    have hrule := isAtRule_iff hheld
    cases hat : statement.isAtRule with
    | true =>
      have hstarts := hrule.mp hat
      simp only [hat, if_true]
      constructor
      · intro h
        cases h with
        | atRule h => rfl
        | rule h =>
          rcases h.1 with h | h | h | h <;> simp [hstarts.1] at h
      · rintro rfl
        exact .atRule ⟨hstarts, hheld.plain⟩
    | false =>
      have hstarts : ¬statement.first.StartsAt := fun h ↦ by simp [hrule.mpr h] at hat
      simp only [hat, Bool.false_eq_true, if_false]
      constructor
      · intro h
        cases h with
        | atRule h => exact absurd h.1 hstarts
        | rule h => rfl
      · rintro rfl
        exact .rule ⟨(starts_first hheld).resolve_left hstarts, hheld.plain⟩

/-! ## Tokens -/

theorem held_concat (hheld : Held s.heldTokens) (ht : t.IsPlain)
    (hstarts : s.heldTokens = [] → t.StartsAt ∨ t.StartsSelector) :
    Held (s.hold t).heldTokens := by
  rw [heldTokens_hold]
  constructor
  · intro u hu
    obtain hu | hu := List.mem_append.mp hu
    · exact hheld.plain u hu
    · exact List.mem_singleton.mp hu ▸ ht
  · intro u hu
    cases hlist : s.heldTokens with
    | nil =>
      rw [hlist] at hu
      obtain rfl := Option.mem_some_iff.mp hu
      exact hstarts hlist
    | cons first more =>
      rw [hlist] at hu hheld
      exact hheld.starts u hu

theorem bodies_hold : (s.hold t).bodies = s.bodies := by
  unfold hold
  cases s.statement <;> rfl

/-- The end of the text asks for what the grammar asks for. -/
theorem finalRefusal?_eq_none_iff (hopen : s.ended = false) (hheld : Held s.heldTokens) :
    s.finalRefusal? = none ↔ Remains s.bodies s.heldTokens := by
  rw [remains_held_iff hheld, finalRefusal?_eq_none_iff_closed s hopen]
  cases hframes : s.frames with
  | cons frame frames => simp [bodies, hframes]
  | nil =>
    have haccepts : s.accepts = .rules := by
      unfold accepts
      rw [hframes]
    have hcut := cutRepair?_eq_none_iff .endOfText hheld (.inr haccepts)
    rw [haccepts] at hcut
    simpa [bodies, hframes] using hcut

/-- A statement goes on with the token, or can start with it. -/
theorem advance_plain (context : Context) (hopen : s.ended = false) (hplain : t.IsPlain)
    (hblank : s.statement = none → ¬t.IsBlank) : s.advance context t = s.hold t := by
  have hnone : ¬s.ended = true := ne_true_of_eq_false hopen
  rw [advance, if_neg hnone]
  cases hkind : t.kind with
  | openCurly => exact absurd hkind hplain.1
  | closeCurly => exact absurd hkind hplain.2.1
  | semicolon => exact absurd hkind hplain.2.2
  | space | comment =>
    cases hstatement : s.statement with
    | none => exact absurd (by simp [Token.IsBlank, hkind]) (hblank hstatement)
    | some statement => simp [readSpace, addComment, hold, hstatement]
  | _ => rfl

theorem repair?_plain (hopen : s.ended = false) (hplain : t.IsPlain)
    (hclosed : t.unclosed = false) : s.repair? t = none := by
  have hnone : ¬s.ended = true := ne_true_of_eq_false hopen
  rw [repair?, if_neg hnone, hclosed]
  cases hkind : t.kind with
  | closeCurly => exact absurd hkind hplain.2.1
  | semicolon => exact absurd hkind hplain.2.2
  | _ => rfl

theorem accepted_hold_iff (hopen : s.ended = false) (hplain : t.IsPlain)
    (hblank : s.statement = none → ¬t.IsBlank) (hclosed : t.unclosed = false) :
    Accepted context s (t :: ts) ↔ s.fatal? t = none ∧ Accepted context (s.hold t) ts := by
  rw [accepted_cons, advance_plain context hopen hplain hblank, repair?_plain hopen hplain hclosed]
  simp

/-- Between statements a blank changes neither the blocks nor the statement. -/
theorem accepted_blank_iff (context : Context) (ts : List Token) (hopen : s.ended = false)
    (hblank : t.IsBlank) (hclosed : t.unclosed = false) (hstatement : s.statement = none) :
    ∃ next : State, next.ended = false ∧ next.heldTokens = [] ∧ next.bodies = s.bodies ∧
      (Accepted context s (t :: ts) ↔ Accepted context next ts) := by
  have hnone : ¬s.ended = true := ne_true_of_eq_false hopen
  have hfatal : s.fatal? t = none := by
    rcases hblank with h | h | h <;> simp [fatal?, h]
  have hrepair : s.repair? t = none := by
    rw [repair?, if_neg hnone, hclosed, hstatement]
    rcases hblank with h | h | h <;> rw [h] <;> rfl
  have hnext : Accepted context s (t :: ts) ↔ Accepted context (s.advance context t) ts := by
    rw [accepted_cons, hfatal, hrepair]
    simp
  refine ⟨s.advance context t, ?_, ?_, ?_, hnext⟩
  · rw [ended_advance, hopen, hrepair]
    rfl
  all_goals
    rw [advance, if_neg hnone]
    rcases hblank with h | h | h <;> rw [h] <;> dsimp only
  · rw [readSpace, hstatement]
    exact heldTokens_none hstatement
  · rw [addComment, hstatement]
    exact heldTokens_none hstatement
  · rw [hstatement]
    exact heldTokens_none hstatement
  · rw [readSpace, hstatement]
    rfl
  · rw [addComment, hstatement]
    rfl
  · rw [hstatement]
    rfl

/-- Inside a statement white space and comments are part of it. -/
theorem accepted_inside_iff (hopen : s.ended = false) (hkind : t.kind = .space ∨ t.kind = .comment)
    (hclosed : t.unclosed = false) {statement : Statement}
    (hstatement : s.statement = some statement) :
    Accepted context s (t :: ts) ↔ Accepted context (s.hold t) ts := by
  have hplain : t.IsPlain := by
    rcases hkind with h | h <;> simp [Token.IsPlain, h]
  have hfatal : s.fatal? t = none := by
    rcases hkind with h | h <;> simp [fatal?, h]
  rw [accepted_hold_iff hopen hplain (by simp [hstatement]) hclosed, hfatal]
  simp

theorem accepted_semicolon_iff (hopen : s.ended = false) (hkind : t.kind = .semicolon)
    {statement : Statement} (hstatement : s.statement = some statement)
    (hheld : Held statement.tokens) :
    Accepted context s (t :: ts) ↔ IsStatement s.accepts statement.tokens ∧
      Accepted context ({ s with statement := none }.conclude context statement .semicolon) ts := by
  have hnone : ¬s.ended = true := ne_true_of_eq_false hopen
  have hadvance : s.advance context t =
      { s with statement := none }.conclude context statement .semicolon := by
    rw [advance, if_neg hnone, hkind]
    dsimp only
    rw [hstatement]
  have hfatal : s.fatal? t = none := by simp [fatal?, hkind]
  have hrepair : s.repair? t = s.keeping? statement .semicolon := by
    rw [repair?, if_neg hnone, hkind]
    dsimp only
    rw [hstatement]
    rfl
  rw [accepted_cons, hadvance, hfatal, hrepair, keeping?_eq_none_iff,
    isSome_leaf?_iff hheld (.inl (by decide))]
  simp

theorem accepted_closeCurly_iff (hopen : s.ended = false) (hkind : t.kind = .closeCurly)
    (hheld : Held s.heldTokens) :
    Accepted context s (t :: ts) ↔ s.frames ≠ [] ∧
      (s.heldTokens = [] ∨ IsStatement s.accepts s.heldTokens) ∧
        Accepted context (s.cut context .closeCurly).closeBlock ts := by
  have hnone : ¬s.ended = true := ne_true_of_eq_false hopen
  have hfatal : s.fatal? t = none := by simp [fatal?, hkind]
  rw [accepted_cons, hfatal, repair?, if_neg hnone, advance, if_neg hnone, hkind]
  dsimp only
  cases s.frames with
  | nil => simp
  | cons frame frames =>
    have hcut := cutRepair?_eq_none_iff .closeCurly hheld (.inl (by decide))
    simp [hcut]

theorem accepted_openCurly_iff (hopen : s.ended = false) (hkind : t.kind = .openCurly) :
    Accepted context s (t :: ts) ↔ s.accepts = .rules ∧
      Accepted context (s.openBlock (s.blockHead context t).1 (s.blockHead context t).2) ts := by
  have hnone : ¬s.ended = true := ne_true_of_eq_false hopen
  have hrepair : s.repair? t = none := by
    rw [repair?, if_neg hnone, hkind]
  have hadvance : s.advance context t =
      s.openBlock (s.blockHead context t).1 (s.blockHead context t).2 := by
    rw [advance, if_neg hnone, hkind]
  have hfatal : s.fatal? t = none ↔ s.accepts = .rules := by
    rw [fatal?, if_neg hnone, hkind]
    cases s.accepts <;> simp
  rw [accepted_cons, hadvance, hrepair, hfatal]
  simp

/-! ## Steps -/

/-- In every state the tokens are accepted just where the grammar allows them to follow. -/
def Faithful (context : Context) (ts : List Token) : Prop :=
  ∀ s : State, s.ended = false → Held s.heldTokens →
    (Accepted context s ts ↔ Remains s.bodies (s.heldTokens ++ ts))

namespace Faithful

variable (h : Faithful context ts) (hopen : s.ended = false) (hheld : Held s.heldTokens)
include h hopen

/-- A blank between statements leaves what remains as it is. -/
theorem blank (ht : t.IsBlank) (hclosed : t.unclosed = false) (hstatement : s.statement = none) :
    Accepted context s (t :: ts) ↔ Remains s.bodies (s.heldTokens ++ t :: ts) := by
  obtain ⟨next, hnext, hheld, hbodies, haccepted⟩ :=
    accepted_blank_iff context ts hopen ht hclosed hstatement
  have hlater := h next hnext (hheld ▸ held_nil)
  rw [hheld, hbodies] at hlater
  rw [haccepted, hlater, heldTokens_none hstatement, List.nil_append, List.nil_append,
    remains_cons_blank_iff ht]

include hheld

/-- So does a token that joins the statement. -/
theorem hold (ht : t.IsPlain) (hstarts : s.heldTokens = [] → t.StartsAt ∨ t.StartsSelector) :
    Accepted context (s.hold t) ts ↔ Remains s.bodies (s.heldTokens ++ t :: ts) := by
  have hlater := h (s.hold t) ((ended_hold s t).trans hopen) (held_concat hheld ht hstarts)
  rw [heldTokens_hold, bodies_hold, List.append_assoc] at hlater
  exact hlater

theorem selector (hclosed : t.unclosed = false) (ht : t.StartsSelector) :
    Accepted context s (t :: ts) ↔ Remains s.bodies (s.heldTokens ++ t :: ts) := by
  have hfatal : s.fatal? t = none := by
    rcases ht with hkind | hkind | hkind | hkind <;> simp [fatal?, hkind]
  have hplain : t.IsPlain := by
    rcases ht with hkind | hkind | hkind | hkind <;> simp [Token.IsPlain, hkind]
  have hnotBlank : ¬t.IsBlank := Token.not_isBlank_of_starts (.inr ht)
  rw [accepted_hold_iff hopen hplain (fun _ ↦ hnotBlank) hclosed, hfatal,
    h.hold hopen hheld hplain fun _ ↦ .inr ht]
  simp

/-- An at-sign without a name can go on a statement, and cannot start one. -/
theorem atWord (hshaped : t.Shaped) (hclosed : t.unclosed = false) (hkind : t.kind = .atWord) :
    Accepted context s (t :: ts) ↔ Remains s.bodies (s.heldTokens ++ t :: ts) := by
  have hplain : t.IsPlain := by simp [Token.IsPlain, hkind]
  have hnotBlank : ¬t.IsBlank := by simp [Token.IsBlank, hkind]
  rw [accepted_hold_iff hopen hplain (fun _ ↦ hnotBlank) hclosed]
  cases hstatement : s.statement with
  | some statement =>
    have hfatal : s.fatal? t = none := by simp [fatal?, hkind, hstatement]
    rw [hfatal, h.hold hopen hheld hplain fun hnil ↦ absurd hnil (heldTokens_ne_nil hstatement)]
    simp
  | none =>
    have hfatal : s.fatal? t = none ↔ t.StartsAt := by
      rw [Token.startsAt_iff hshaped hkind]
      simp [fatal?, hopen, hkind, hstatement]
    rw [hfatal]
    constructor
    · intro hstep
      exact (h.hold hopen hheld hplain fun _ ↦ .inl hstep.1).mp hstep.2
    · intro hremains
      have hstarts : t.StartsAt := by
        have hfirst := hremains
        rw [heldTokens_none hstatement] at hfirst
        obtain hstarts | hselector | hselector | hselector | hselector :=
          hfirst.starts hplain hnotBlank
        · exact hstarts
        all_goals simp [hkind] at hselector
      exact ⟨hstarts, (h.hold hopen hheld hplain fun _ ↦ .inl hstarts).mpr hremains⟩

theorem inside (hclosed : t.unclosed = false) (hkind : t.kind = .space ∨ t.kind = .comment)
    {statement : Statement} (hstatement : s.statement = some statement) :
    Accepted context s (t :: ts) ↔ Remains s.bodies (s.heldTokens ++ t :: ts) := by
  have hplain : t.IsPlain := by
    rcases hkind with hkind | hkind <;> simp [Token.IsPlain, hkind]
  rw [accepted_inside_iff hopen hkind hclosed hstatement]
  exact h.hold hopen hheld hplain fun hnil ↦ absurd hnil (heldTokens_ne_nil hstatement)

theorem openCurly (hkind : t.kind = .openCurly) :
    Accepted context s (t :: ts) ↔ Remains s.bodies (s.heldTokens ++ t :: ts) := by
  have hlater := h (s.openBlock (s.blockHead context t).1 (s.blockHead context t).2) hopen held_nil
  rw [accepted_openCurly_iff hopen hkind, remains_openCurly_iff hheld hkind, accepts_eq, hlater]
  simp only [opens_iff context t hheld]
  simp [bodies, openBlock, heldTokens]

theorem semicolon (hkind : t.kind = .semicolon) {statement : Statement}
    (hstatement : s.statement = some statement) :
    Accepted context s (t :: ts) ↔ Remains s.bodies (s.heldTokens ++ t :: ts) := by
  let next := { s with statement := none }.conclude context statement .semicolon
  have hnext := conclude_eq context { s with statement := none } statement .semicolon
  have hnextHeld : next.heldTokens = [] := by
    dsimp only [next]
    rw [hnext]
    rfl
  have hnextBodies : next.bodies = s.bodies := by
    dsimp only [next]
    rw [hnext]
    rfl
  have hlater := h next (by dsimp only [next]; rw [hnext]; exact hopen) (hnextHeld ▸ held_nil)
  rw [hnextHeld, hnextBodies] at hlater
  rw [heldTokens_some hstatement] at hheld ⊢
  rw [accepted_semicolon_iff hopen hkind hstatement hheld, hlater, accepts_eq,
    remains_semicolon_iff hheld (List.cons_ne_nil _ _) hkind]
  rfl

theorem closeCurly (hkind : t.kind = .closeCurly) :
    Accepted context s (t :: ts) ↔ Remains s.bodies (s.heldTokens ++ t :: ts) := by
  rw [accepted_closeCurly_iff hopen hkind hheld, remains_closeCurly_iff hheld hkind, accepts_eq]
  cases hframes : s.frames with
  | nil => simp [bodies, hframes]
  | cons frame frames =>
    let next := (s.cut context .closeCurly).closeBlock
    have hcut : (s.cut context .closeCurly).frames = frame :: frames := by
      rw [frames_cut, hframes]
    have hclosed : next.heldTokens = [] ∧ next.bodies = frames.map fun frame ↦ frame.head.body := by
      dsimp only [next]
      unfold closeBlock
      rw [hcut]
      exact ⟨by rw [cut_eq]; rfl, rfl⟩
    have hended : next.ended = false := by
      dsimp only [next]
      rw [ended_closeBlock, cut_eq]
      exact hopen
    have hlater := h next hended (hclosed.1 ▸ held_nil)
    rw [hclosed.1, hclosed.2] at hlater
    rw [hlater]
    simp [bodies, hframes]

end Faithful

/-- Where the tokens are closed, a parse asks for what the grammar asks for. -/
theorem faithful (context : Context) (hts : ∀ t ∈ ts, t.Shaped ∧ t.unclosed = false) :
    Faithful context ts := by
  induction ts with
  | nil =>
    intro s hopen hheld
    rw [List.append_nil]
    exact accepted_nil.trans (finalRefusal?_eq_none_iff hopen hheld)
  | cons t ts ih =>
    intro s hopen hheld
    obtain ⟨⟨hshaped, hclosed⟩, hts⟩ := List.forall_mem_cons.mp hts
    have hlater := ih hts
    cases hkind : t.kind with
    | word | string | colon | other =>
      exact hlater.selector hopen hheld hclosed (by simp [Token.StartsSelector, hkind])
    | atWord => exact hlater.atWord hopen hheld hshaped hclosed hkind
    | openCurly => exact hlater.openCurly hopen hheld hkind
    | closeCurly => exact hlater.closeCurly hopen hheld hkind
    | space | comment =>
      cases hstatement : s.statement with
      | none => exact hlater.blank hopen (by simp [Token.IsBlank, hkind]) hclosed hstatement
      | some statement => exact hlater.inside hopen hheld hclosed (by simp [hkind]) hstatement
    | semicolon =>
      cases hstatement : s.statement with
      | none => exact hlater.blank hopen (by simp [Token.IsBlank, hkind]) hclosed hstatement
      | some statement => exact hlater.semicolon hopen hheld hkind hstatement

end Parse.State

open Parse

/-- Strict parsing accepts the texts whose tokens are all closed and make up a stylesheet. -/
theorem exists_strict_iff (path : Option String) (text : String) :
    (∃ tree, parse { strict := true, path } text = .ok tree) ↔
      (∀ t ∈ tokenize text, t.unclosed = false) ∧ Sheet (tokenize text) := by
  have hshaped := shaped_of_mem_tokenize text
  have haccepted : (∃ tree, parse { strict := true, path } text = .ok tree) ↔
      State.Accepted (Options.mk true path).context {} (tokenize text) := by
    constructor
    · rintro ⟨tree, h⟩
      obtain ⟨hfatal, hrepairs, hfinal, _⟩ :=
        (parse_strict_eq_ok_iff { strict := true, path } text rfl tree).mp h
      exact ⟨hfatal, hrepairs, hfinal⟩
    · intro h
      exact ⟨_, (parse_strict_eq_ok_iff { strict := true, path } text rfl _).mpr
        ⟨h.fatal, h.repairs, h.final, rfl⟩⟩
  have hiff (hclosed : ∀ t ∈ tokenize text, t.unclosed = false) :
      State.Accepted (Options.mk true path).context {} (tokenize text) ↔
        Sheet (tokenize text) :=
    State.faithful _ (fun t ht ↦ ⟨hshaped t ht, hclosed t ht⟩) {} rfl held_nil
  rw [haccepted]
  refine ⟨fun h ↦ ?_, fun ⟨hclosed, h⟩ ↦ (hiff hclosed).mpr h⟩
  have hclosed := State.unclosed_of_repairsIn_eq_nil hshaped rfl h.fatal h.repairs
  exact ⟨hclosed, (hiff hclosed).mp h⟩

end Stylesheet
