import Stylesheet.Proofs.Parse.Append
import Stylesheet.Proofs.Parse.Gaps
import Stylesheet.Proofs.Parse.Origins
import Stylesheet.Proofs.Token.Stretches

/-!
# The flags of containers

A container's flag is set by the statements that end in it, and by blocks. While the container is
open, the flag says whether the last node but for comments is a statement, since only a semicolon
can have ended it. Among declarations, statements without a colon count too, though they make no
node (`State.Counts`). The end of the container cuts off at most one statement more, which then is
the last node. This settles what the flag of a closed container says (`FlagFits`).
-/

namespace Stylesheet

open Text

/-- What the flag of a closed container says. If it is not set, a statement at the end can only be
one that the end of the container has cut off. -/
structure FlagFits (strict : Bool) (ts : List Token) (body : BodyKind) (start : Position)
    (children : List Node) (after : String) (semicolon : Bool) : Prop where
  rules : body = .rules → semicolon = true →
    ∃ n ∈ children.reverse.find? (!·.isComment), n.isStatement = true
  unset : semicolon = false → ∀ n ∈ children.reverse.find? (!·.isComment),
    n.isStatement = true → children.getLast? = some n ∧ Blanks after.toList
  undeclared : body = .declarations → (∀ n ∈ children, n.isStatement = false) →
    (semicolon = true ↔ ∃ stretch ∈ stretchesEnded (tokensInside ts start), IsColonless stretch) ∧
      (strict = true → semicolon = false)

/-- The flags of the node and of those inside of it say what they should. -/
inductive Node.Flagged (strict : Bool) (ts : List Token) : Node → Prop
  | leaf (source : Source) (leaf : Leaf) : Flagged strict ts (.leaf source leaf)
  | block {source : Source} {head : Head} {children : List Node} {after : String}
      {semicolon : Bool}
      (fits : FlagFits strict ts head.body source.position children after semicolon)
      (hchildren : ∀ n ∈ children, Flagged strict ts n) :
      Flagged strict ts (.block source head children after semicolon)

/-- The statement has no say in the flag: between rules it is no at-rule, and among declarations it
has no colon and is cut off by the brace of the block. -/
def Statement.IsStray (statement : Statement) (body : BodyKind) (ending : Parse.Ending) : Prop :=
  match body with
  | .rules => statement.isAtRule = false
  | .declarations => ending = .closeCurly ∧ ∀ t ∈ statement.tokens, t.kind ≠ .colon

namespace Parse.State

variable {context : Context} {s : State} {t : Token} {ts read behind inside gap : List Token}
variable {ended : List (List Token)} {statement : Statement} {ending : Ending} {leaf : Leaf}

/-! ## What a token and the end of a statement do -/

/-- A token that is no brace goes to a statement, or stands between statements, or ends one. -/
theorem advance_cases (context : Context) (hopen : s.ended = false)
    (hbrace : t.kind ≠ .openCurly ∧ t.kind ≠ .closeCurly) :
    (s.advance context t = s.hold t ∧ t.kind ≠ .semicolon ∧
      (s.statement = none → ¬t.IsSpacing)) ∨
    (s.statement = none ∧ (t.IsSpacing ∨ t.kind = .semicolon) ∧ ∃ comments pending,
      (∀ n ∈ comments, ∃ source c, n = .leaf source (.comment c)) ∧
        s.advance context t =
          { s with scope := ⟨comments ++ s.scope.children, pending, s.scope.semicolon⟩ }) ∨
    ∃ statement, s.statement = some statement ∧ t.kind = .semicolon ∧
      s.advance context t = { s with statement := none }.conclude context statement .semicolon := by
  have hnot : ¬s.ended = true := ne_true_of_eq_false hopen
  have hspacing (h : t.kind ≠ .space ∧ t.kind ≠ .comment) : ¬t.IsSpacing :=
    fun hspacing ↦ hspacing.elim h.1 h.2
  rw [advance, if_neg hnot]
  cases hkind : t.kind with
  | openCurly => exact absurd hkind hbrace.1
  | closeCurly => exact absurd hkind hbrace.2
  | string | word | atWord | colon | other =>
    exact .inl ⟨rfl, by simp, fun _ ↦ hspacing (by simp [hkind])⟩
  | space =>
    cases hstatement : s.statement with
    | some statement =>
      refine .inl ⟨?_, by simp, fun hnone ↦ absurd hnone (Option.some_ne_none _)⟩
      simp [readSpace, hold, hstatement]
    | none =>
      refine .inr (.inl ⟨rfl, .inl (.inl hkind), [], s.scope.pending ++ t.text,
        fun _ h ↦ absurd h List.not_mem_nil, ?_⟩)
      simp [readSpace, hstatement, addText, Scope.addText]
  | comment =>
    cases hstatement : s.statement with
    | some statement =>
      refine .inl ⟨?_, by simp, fun hnone ↦ absurd hnone (Option.some_ne_none _)⟩
      simp [addComment, hstatement]
    | none =>
      refine .inr (.inl ⟨rfl, .inl (.inr hkind),
        [.leaf (context.source t.start) (.comment (Comment.ofToken s.scope.pending t))], "",
        by simp, ?_⟩)
      simp [addComment, hstatement, addLeaf, Scope.add]
  | semicolon =>
    cases hstatement : s.statement with
    | some statement => exact .inr (.inr ⟨statement, rfl, rfl, rfl⟩)
    | none =>
      refine .inr (.inl ⟨rfl, .inr rfl, [], s.scope.pending ++ t.text,
        fun _ h ↦ absurd h List.not_mem_nil, ?_⟩)
      simp [addText, Scope.addText, hstatement]

/-- A statement makes a leaf and sets the flag, or makes none: then only a semicolon among
declarations sets the flag. -/
theorem conclude_cases (context : Context) (s : State) (statement : Statement) (ending : Ending) :
    (∃ source leaf, s.leaf? statement ending = some leaf ∧
      (s.conclude context statement ending).scope =
        ⟨.leaf source leaf :: s.scope.children, "", ending == .semicolon⟩) ∨
    s.leaf? statement ending = none ∧ ∃ pending,
      (s.conclude context statement ending).scope = ⟨s.scope.children, pending,
        if ending = .semicolon ∧ s.accepts = .declarations then true else s.scope.semicolon⟩ := by
  unfold conclude
  cases hleaf : s.leaf? statement ending with
  | some leaf => exact .inl ⟨context.source statement.first.start, leaf, rfl, rfl⟩
  | none =>
    refine .inr ⟨rfl, (s.keepStatement statement ending).scope.pending, ?_⟩
    unfold keepStatement
    cases ending <;> cases s.accepts <;> rfl

theorem isStatement_of_leaf? (source : Source) (h : s.leaf? statement ending = some leaf) :
    (Node.leaf source leaf).isComment = false ∧ (Node.leaf source leaf).isStatement = true := by
  have hplain := isComment_leaf? h
  exact ⟨hplain, by rw [Node.isStatement, Leaf.isStatement, hplain, Bool.not_false]⟩

theorem leaf?_eq_none_iff (haccepts : s.accepts = .declarations) (hending : ending ≠ .endOfText) :
    s.leaf? statement ending = none ↔ ∀ t ∈ statement.tokens, t.kind ≠ .colon := by
  rw [← Declaration.ofTokens?_eq_none_iff s.scope.pending, leaf?, haccepts]
  cases Declaration.ofTokens? s.scope.pending statement.tokens <;> simp [hending]

/-! ## Steps that leave the flag alone -/

theorem scope_of_repaired {log : List Event} {next s' : State} {repair : Option Event}
    (h : repaired context log next repair = .ok s') : s'.scope = next.scope := by
  unfold repaired at h
  split at h
  · rw [← Except.ok.inj h]
  · split at h
    · contradiction
    · rw [← Except.ok.inj h]
      rfl

/-- White space, comments and semicolons between statements do not change the flag. -/
theorem semicolon_of_step {s' : State} (h : s.step context t = .ok s')
    (ht : t.kind = .space ∨ t.kind = .comment ∨ t.kind = .semicolon ∧ s.statement = none) :
    s'.scope.semicolon = s.scope.semicolon := by
  rw [step_eq] at h
  split at h
  · contradiction
  rw [scope_of_repaired h]
  cases hended : s.ended with
  | true =>
    rw [advance, if_pos hended]
    rfl
  | false =>
    have hbrace : t.kind ≠ .openCurly ∧ t.kind ≠ .closeCurly := by
      rcases ht with hkind | hkind | ⟨hkind, -⟩ <;> simp [hkind]
    obtain ⟨hhold, -⟩ | ⟨-, -, comments, pending, -, hnext⟩ | ⟨statement, hstatement, hkind, -⟩ :=
      advance_cases context hended hbrace
    · rw [hhold, hold]
      cases s.statement <;> rfl
    · rw [hnext]
    · simp [hkind, hstatement] at ht

theorem semicolon_conclude (context : Context) (h : statement.IsStray s.accepts ending) :
    (s.conclude context statement ending).scope.semicolon = s.scope.semicolon := by
  have hnone : s.leaf? statement ending = none ∧
      ¬(ending = .semicolon ∧ s.accepts = .declarations) := by
    unfold Statement.IsStray at h
    cases haccepts : s.accepts with
    | rules =>
      rw [haccepts] at h
      exact ⟨by rw [leaf?, haccepts, h]; rfl, by simp⟩
    | declarations =>
      rw [haccepts] at h
      obtain ⟨rfl, hless⟩ := h
      have hleaf : s.leaf? statement .closeCurly = none :=
        (leaf?_eq_none_iff haccepts (by simp)).mpr hless
      exact ⟨hleaf, by simp⟩
  obtain ⟨source, leaf, hleaf, -⟩ | ⟨-, pending, hscope⟩ :=
    conclude_cases context s statement ending
  · exact absurd (hnone.1.symm.trans hleaf) (Option.some_ne_none leaf).symm
  · rw [hscope, if_neg hnone.2]

/-- Nor does a stray statement, however it ends. -/
theorem semicolon_of_endStatement {s' : State}
    (h : s.endStatement context statement ending = .ok s')
    (hstray : statement.IsStray s.accepts ending) : s'.scope.semicolon = s.scope.semicolon := by
  rw [endStatement_eq] at h
  rw [scope_of_repaired h, semicolon_conclude context hstray]

theorem semicolon_cut (context : Context)
    (h : ∀ statement, s.statement = some statement → statement.IsStray s.accepts ending) :
    (s.cut context ending).scope.semicolon = s.scope.semicolon := by
  unfold cut
  cases hstatement : s.statement with
  | none => rfl
  | some statement =>
    have hstray : statement.splitSpace.1.IsStray s.accepts ending := by
      have hstray := h statement hstatement
      unfold Statement.IsStray Statement.isAtRule at hstray ⊢
      rw [Statement.first_splitSpace]
      cases hbody : s.accepts with
      | rules => rwa [hbody] at hstray
      | declarations =>
        rw [hbody] at hstray
        refine ⟨hstray.1, fun t ht ↦ hstray.2 t ?_⟩
        rw [← Statement.tokens_splitSpace]
        exact List.mem_append_left _ ht
    exact @semicolon_conclude { s with statement := none } _ ending context hstray

/-- A block that is closed behind a stray statement, or behind none, has the flag as it was. -/
theorem exists_block_of_step {s' : State} {frame : Frame} {frames : List Frame}
    (h : s.step context t = .ok s') (hopen : s.ended = false) (hkind : t.kind = .closeCurly)
    (hframes : s.frames = frame :: frames)
    (hstray : ∀ statement, s.statement = some statement →
      statement.IsStray s.accepts .closeCurly) :
    ∃ children after, s'.scope.children =
      .block frame.source frame.head children after s.scope.semicolon :: frame.outer.children := by
  rw [step_eq] at h
  split at h
  · contradiction
  rw [scope_of_repaired h, advance_brace context hkind hopen hframes, closeBlock, frames_cut,
    hframes, ← semicolon_cut context hstray]
  exact ⟨_, _, rfl⟩

/-! ## Among declarations -/

/-- Inside of a block of declarations the stretches up to here have ended, and behind the last
semicolon there is spacing in front of the statement. -/
structure Counts (context : Context) (s : State) (inside : List Token)
    (ended : List (List Token)) (gap : List Token) : Prop where
  split : inside.splitOnP (·.kind == .semicolon) = ended ++ [gap ++ s.heldTokens]
  gap : ∀ t ∈ gap, t.IsSpacing
  flag : s.scope.semicolon = true ↔
    (∃ n ∈ s.scope.children, n.isStatement = true) ∨ ∃ stretch ∈ ended, IsColonless stretch
  strict : context.strict = true → ∀ stretch ∈ ended, ¬IsColonless stretch

theorem Counts.hold (h : s.Counts context inside ended gap) (ht : t.kind ≠ .semicolon) :
    (s.hold t).Counts context (inside ++ [t]) ended gap := by
  have hsplit := splitOnP_concat h.split ht
  rw [List.append_assoc, ← heldTokens_hold] at hsplit
  have hscope : (s.hold t).scope = s.scope := by
    unfold State.hold
    cases s.statement <;> rfl
  exact ⟨hsplit, h.gap, hscope ▸ h.flag, h.strict⟩

/-- Comments among the nodes make no difference. -/
theorem exists_isStatement_append_iff {comments children : List Node}
    (h : ∀ n ∈ comments, ∃ source c, n = .leaf source (.comment c)) :
    (∃ n ∈ comments ++ children, n.isStatement = true) ↔ ∃ n ∈ children, n.isStatement = true := by
  refine ⟨?_, fun ⟨n, hn, hstatement⟩ ↦ ⟨n, List.mem_append_right _ hn, hstatement⟩⟩
  rintro ⟨n, hn, hstatement⟩
  obtain hcomment | hn := List.mem_append.mp hn
  · obtain ⟨source, c, rfl⟩ := h n hcomment
    exact absurd hstatement Bool.false_ne_true
  · exact ⟨n, hn, hstatement⟩

/-- Spacing between statements ends nothing, and a semicolon ends spacing. -/
theorem Counts.between (h : s.Counts context inside ended gap) (hstatement : s.statement = none)
    (ht : t.IsSpacing ∨ t.kind = .semicolon) {comments : List Node}
    (hcomments : ∀ n ∈ comments, ∃ source c, n = .leaf source (.comment c)) (pending : String) :
    ∃ ended gap, { s with scope :=
      ⟨comments ++ s.scope.children, pending, s.scope.semicolon⟩ }.Counts context (inside ++ [t])
        ended gap := by
  have hheld : { s with scope :=
      ⟨comments ++ s.scope.children, pending, s.scope.semicolon⟩ }.heldTokens = [] :=
    heldTokens_none hstatement
  have hsplit := h.split
  rw [heldTokens_none hstatement, List.append_nil] at hsplit
  have hflag := h.flag
  rw [← exists_isStatement_append_iff hcomments] at hflag
  cases ht with
  | inl hspacing =>
    refine ⟨ended, gap ++ [t], ?_, ?_, hflag, h.strict⟩
    · have hkind : t.kind ≠ .semicolon := by
        rcases hspacing with hkind | hkind <;> simp [hkind]
      rw [splitOnP_concat hsplit hkind, hheld, List.append_nil]
    · exact List.forall_mem_append.mpr ⟨h.gap, List.forall_mem_singleton.mpr hspacing⟩
  | inr hkind =>
    have hgap : ¬IsColonless gap := fun ⟨⟨t, ht, hnot⟩, _⟩ ↦ hnot (h.gap t ht)
    refine ⟨ended ++ [gap], [], ?_, fun _ h ↦ absurd h List.not_mem_nil, ?_, fun hstrict ↦ ?_⟩
    · rw [splitOnP_semicolon hkind, hsplit, hheld]
      rfl
    · rw [hflag]
      simp [hgap]
    · exact List.forall_mem_append.mpr ⟨h.strict hstrict, List.forall_mem_singleton.mpr hgap⟩

/-- A statement without a colon is one more of those that semicolons have ended, and any other is
one more node. -/
theorem Counts.conclude (h : s.Counts context inside ended gap)
    (haccepts : s.accepts = .declarations) (hstatement : s.statement = some statement)
    (hfirst : ¬statement.first.IsSpacing) (hkind : t.kind = .semicolon)
    (hrepair : context.strict = true → s.keeping? statement .semicolon = none) :
    ({ s with statement := none }.conclude context statement .semicolon).Counts context
      (inside ++ [t]) (ended ++ [gap ++ statement.tokens]) [] := by
  have hheld : ({ s with statement := none }.conclude context statement .semicolon).heldTokens =
      [] := by
    rw [conclude_eq]
    rfl
  have hsplit : (inside ++ [t]).splitOnP (·.kind == .semicolon) =
      (ended ++ [gap ++ statement.tokens]) ++ [[] ++
        ({ s with statement := none }.conclude context statement .semicolon).heldTokens] := by
    rw [splitOnP_semicolon hkind, h.split, heldTokens_some hstatement, hheld]
    rfl
  have hcolonless : IsColonless (gap ++ statement.tokens) ↔
      { s with statement := none }.leaf? statement .semicolon = none := by
    have hnone : s.leaf? statement .semicolon = none ↔ ∀ t ∈ statement.tokens, t.kind ≠ .colon :=
      leaf?_eq_none_iff haccepts (by simp)
    apply Iff.trans _ hnone.symm
    refine ⟨fun hless t ht ↦ hless.2 t (List.mem_append_right _ ht), fun hless ↦ ⟨?_, ?_⟩⟩
    · exact ⟨statement.first, List.mem_append_right _ List.mem_cons_self, hfirst⟩
    · refine List.forall_mem_append.mpr ⟨fun t ht ↦ ?_, hless⟩
      rcases h.gap t ht with hspacing | hspacing <;> simp [hspacing]
  obtain ⟨source, leaf, hleaf, hscope⟩ | ⟨hleaf, pending, hscope⟩ :=
    conclude_cases context { s with statement := none } statement .semicolon
  · have hcolon : ¬IsColonless (gap ++ statement.tokens) := by simp [hcolonless, hleaf]
    refine ⟨hsplit, fun _ h ↦ absurd h List.not_mem_nil, ?_, fun hstrict ↦ ?_⟩
    · rw [hscope]
      refine iff_of_true rfl (.inl ⟨_, List.mem_cons_self, (isStatement_of_leaf? source hleaf).2⟩)
    · exact List.forall_mem_append.mpr ⟨h.strict hstrict, List.forall_mem_singleton.mpr hcolon⟩
  · have hless := hcolonless.mpr hleaf
    refine ⟨hsplit, fun _ h ↦ absurd h List.not_mem_nil, ?_, fun hstrict ↦ ?_⟩
    · rw [hscope, if_pos ⟨rfl, haccepts⟩]
      exact iff_of_true rfl (.inr ⟨_, List.mem_append_right _ List.mem_cons_self, hless⟩)
    · have hkept := hrepair hstrict
      rw [keeping?, show s.leaf? statement .semicolon = none from hleaf] at hkept
      contradiction

/-! ## One step -/

/-- What is true of the flags when the parse has come behind the tokens. Nodes that have been closed
are flagged, and around a block the flag is not set. -/
structure Flagged (context : Context) (ts : List Token) (s : State) (read : List Token) :
    Prop where
  children : ∀ n ∈ s.scope.children, n.Flagged context.strict ts
  frames : ∀ frame ∈ s.frames,
    frame.outer.semicolon = false ∧ ∀ n ∈ frame.outer.children, n.Flagged context.strict ts
  around : ∀ frame ∈ s.frames.tail, frame.head.body = .rules
  held : ∀ t ∈ s.heldTokens, t.kind ≠ .openCurly
  first : ∀ statement, s.statement = some statement → ¬statement.first.IsSpacing
  rules : s.accepts = .rules → (s.scope.semicolon = true ↔
    ∃ n ∈ s.scope.children.find? (!·.isComment), n.isStatement = true)
  declarations : ∀ frame ∈ s.frames.head?, frame.head.body = .declarations →
    ∃ inside ended gap, EndsInside read frame.source.position inside ∧
      s.Counts context inside ended gap

theorem flagged_start (context : Context) (ts : List Token) :
    ({} : State).Flagged context ts [] where
  children _ h := nomatch h
  frames _ h := nomatch h
  around _ h := nomatch h
  held _ h := nomatch h
  first _ h := nomatch h
  rules _ := by simp
  declarations _ h := nomatch h

theorem Flagged.hold (h : s.Flagged context ts read)
    (hbrace : t.kind ≠ .openCurly ∧ t.kind ≠ .closeCurly) (hkind : t.kind ≠ .semicolon)
    (hspacing : s.statement = none → ¬t.IsSpacing) :
    (s.hold t).Flagged context ts (read ++ [t]) := by
  have hheld : ∀ u ∈ (s.hold t).heldTokens, u.kind ≠ .openCurly := by
    rw [heldTokens_hold]
    exact List.forall_mem_append.mpr ⟨h.held, List.forall_mem_singleton.mpr hbrace.1⟩
  have hcounts : ∀ frame ∈ s.frames.head?, frame.head.body = .declarations →
      ∃ inside ended gap, EndsInside (read ++ [t]) frame.source.position inside ∧
        (s.hold t).Counts context inside ended gap := by
    intro frame hframe hbody
    obtain ⟨inside, ended, gap, hinside, hcounts⟩ := h.declarations frame hframe hbody
    exact ⟨_, _, _, hinside.concat hbrace.2, hcounts.hold hkind⟩
  obtain ⟨scope, frames, statement, ended, log⟩ := s
  cases statement with
  | none =>
    exact { h with
      held := hheld
      first := fun statement hsome ↦ Option.some.inj hsome ▸ hspacing rfl
      declarations := hcounts }
  | some statement =>
    exact { h with
      held := hheld
      first := fun statement' hsome ↦ Option.some.inj hsome ▸ h.first statement rfl
      declarations := hcounts }

/-- Neither spacing nor a lone semicolon changes the flag. -/
theorem Flagged.between (h : s.Flagged context ts read) (hstatement : s.statement = none)
    (ht : t.IsSpacing ∨ t.kind = .semicolon) {comments : List Node}
    (hcomments : ∀ n ∈ comments, ∃ source c, n = .leaf source (.comment c)) (pending : String) :
    { s with scope :=
      ⟨comments ++ s.scope.children, pending, s.scope.semicolon⟩ }.Flagged context ts
        (read ++ [t]) := by
  have hbrace : t.kind ≠ .closeCurly := by
    rcases ht with (hkind | hkind) | hkind <;> simp [hkind]
  have hnone : comments.find? (!·.isComment) = none := by
    rw [List.find?_eq_none]
    intro n hn
    obtain ⟨source, c, rfl⟩ := hcomments n hn
    simp [Node.isComment, Leaf.isComment]
  refine { h with children := ?_, rules := ?_, declarations := ?_ }
  · refine List.forall_mem_append.mpr ⟨fun n hn ↦ ?_, h.children⟩
    obtain ⟨source, c, rfl⟩ := hcomments n hn
    exact .leaf source _
  · intro haccepts
    dsimp only
    rw [List.find?_append, hnone, Option.none_or]
    exact h.rules haccepts
  · intro frame hframe hbody
    obtain ⟨inside, ended, gap, hinside, hcounts⟩ := h.declarations frame hframe hbody
    obtain ⟨ended', gap', hnext⟩ := hcounts.between hstatement ht hcomments pending
    exact ⟨_, ended', gap', hinside.concat hbrace, hnext⟩

theorem accepts_of_mem_frames {frame : Frame} (h : frame ∈ s.frames.head?) :
    s.accepts = frame.head.body := by
  obtain ⟨frames, hframes⟩ := List.head?_eq_some_iff.mp h
  rw [accepts, hframes]

theorem Flagged.conclude (h : s.Flagged context ts read)
    (hstatement : s.statement = some statement) (hkind : t.kind = .semicolon)
    (hrepair : context.strict = true → s.keeping? statement .semicolon = none) :
    ({ s with statement := none }.conclude context statement .semicolon).Flagged context ts
      (read ++ [t]) := by
  have hcounts : ∀ frame ∈ s.frames.head?, frame.head.body = .declarations →
      ∃ inside ended gap, EndsInside (read ++ [t]) frame.source.position inside ∧
        ({ s with statement := none }.conclude context statement .semicolon).Counts context
          inside ended gap := by
    intro frame hframe hbody
    obtain ⟨inside, ended, gap, hinside, hcounts⟩ := h.declarations frame hframe hbody
    have haccepts := (accepts_of_mem_frames hframe).trans hbody
    exact ⟨_, _, _, hinside.concat (by simp [hkind]), hcounts.conclude haccepts hstatement
      (h.first statement hstatement) hkind hrepair⟩
  have hcases := conclude_cases context { s with statement := none } statement .semicolon
  rw [conclude_eq] at hcounts ⊢
  obtain ⟨source, leaf, hleaf, hscope⟩ | ⟨hleaf, pending, hscope⟩ := hcases
  · rw [hscope] at hcounts ⊢
    obtain ⟨hplain, hstate⟩ := isStatement_of_leaf? source hleaf
    refine { h with
      children := List.forall_mem_cons.mpr ⟨.leaf source leaf, h.children⟩
      held := fun _ h ↦ nomatch h
      first := fun _ h ↦ nomatch h
      rules := fun _ ↦ ?_
      declarations := hcounts }
    simp [hplain, hstate]
  · rw [hscope] at hcounts ⊢
    refine { h with
      held := fun _ h ↦ nomatch h
      first := fun _ h ↦ nomatch h
      rules := fun haccepts ↦ ?_
      declarations := hcounts }
    have hnot : ¬(Ending.semicolon = Ending.semicolon ∧
        { s with statement := none }.accepts = .declarations) := by
      rintro ⟨-, hbody⟩
      exact nomatch haccepts.symm.trans hbody
    rw [if_neg hnot]
    exact h.rules haccepts

theorem start_blockHead (context : Context) (s : State) (brace : Token) :
    ∀ t ∈ (s.heldTokens ++ [brace]).head?, t.start = (s.blockHead context brace).1.position := by
  intro t ht
  unfold blockHead
  cases hstatement : s.statement with
  | none =>
    rw [heldTokens_none hstatement] at ht
    obtain rfl := Option.some.inj ht
    rfl
  | some statement =>
    rw [heldTokens_some hstatement] at ht
    obtain rfl := Option.some.inj ht
    dsimp only
    split <;> rfl

/-- The flag of a container is not set any more when a block is opened in it. -/
theorem Flagged.openBlock (h : s.Flagged context ts read) (haccepts : s.accepts = .rules)
    (hkind : t.kind = .openCurly) (hread : s.heldTokens <:+ read) :
    (s.openBlock (s.blockHead context t).1 (s.blockHead context t).2).Flagged context ts
      (read ++ [t]) where
  children _ h := absurd h List.not_mem_nil
  frames := List.forall_mem_cons.mpr ⟨⟨rfl, h.children⟩, h.frames⟩
  around := by
    intro frame hframe
    change frame ∈ s.frames at hframe
    cases hframes : s.frames with
    | nil => exact absurd (hframes ▸ hframe) List.not_mem_nil
    | cons first frames =>
      have haround := h.around
      rw [accepts, hframes] at haccepts
      rw [hframes] at hframe haround
      obtain rfl | hframe := List.mem_cons.mp hframe
      · exact haccepts
      · exact haround frame hframe
  held _ h := absurd h List.not_mem_nil
  first _ h := absurd h.symm (Option.some_ne_none _)
  rules _ := by simp [State.openBlock]
  declarations := by
    intro frame hframe hbody
    obtain rfl := Option.some.inj hframe
    obtain ⟨before, hread⟩ := hread
    refine ⟨[], [], [], ⟨before, s.heldTokens, t, by simp [← hread], start_blockHead context s t,
      h.held, hkind, fun _ h ↦ absurd h List.not_mem_nil⟩, rfl,
      fun _ h ↦ absurd h List.not_mem_nil, ?_, fun _ _ h ↦ absurd h List.not_mem_nil⟩
    simp [State.openBlock]

/-! ## The end of a container -/

/-- Where the innermost block starts. -/
def opened (s : State) : Position :=
  (s.frames.head?.map fun frame ↦ frame.source.position).getD {}

/-- The innermost container has come to its end. -/
structure Closing (context : Context) (ts : List Token) (s : State) : Prop where
  fits : FlagFits context.strict ts s.accepts s.opened s.scope.children.reverse s.scope.pending
    s.scope.semicolon
  children : ∀ n ∈ s.scope.children, n.Flagged context.strict ts
  frames : ∀ frame ∈ s.frames,
    frame.outer.semicolon = false ∧ ∀ n ∈ frame.outer.children, n.Flagged context.strict ts
  around : ∀ frame ∈ s.frames.tail, frame.head.body = .rules

/-- The statement that is cut off does not change the flag if it makes no node. -/
theorem cut_cases (context : Context) (s : State) (hending : ending ≠ .semicolon) :
    ((s.cut context ending).scope.children = s.scope.children ∧
      (s.cut context ending).scope.semicolon = s.scope.semicolon) ∨
    ∃ n space, n.isComment = false ∧ n.isStatement = true ∧ n.Flagged context.strict ts ∧
      (∀ t ∈ space, t ∈ s.heldTokens ∧ t.kind = .space) ∧
        (s.cut context ending).scope = ⟨n :: s.scope.children, keptText space, false⟩ := by
  unfold cut
  cases hstatement : s.statement with
  | none => exact .inl ⟨rfl, rfl⟩
  | some statement =>
    dsimp only [addText, Scope.addText]
    obtain ⟨source, leaf, hleaf, hscope⟩ | ⟨hleaf, pending, hscope⟩ :=
      conclude_cases context { s with statement := none } statement.splitSpace.1 ending
    · obtain ⟨hplain, hstate⟩ := isStatement_of_leaf? source hleaf
      have hunset : (ending == .semicolon) = false := by simp [hending]
      refine .inr ⟨.leaf source leaf, statement.splitSpace.2, hplain, hstate, .leaf source leaf,
        fun t ht ↦ ⟨?_, Statement.kind_of_mem_splitSpace ht⟩, ?_⟩
      · rw [heldTokens_some hstatement, ← Statement.tokens_splitSpace]
        exact List.mem_append_right _ ht
      · rw [hscope, hunset, String.empty_append]
    · rw [hscope, if_neg fun hboth ↦ hending hboth.1]
      exact .inl ⟨rfl, rfl⟩

/-- A statement that has ended among the nodes of an open container has set its flag. -/
theorem Flagged.semicolon (h : s.Flagged context ts read) {n : Node}
    (hn : n ∈ s.scope.children.find? (!·.isComment)) (hstatement : n.isStatement = true) :
    s.scope.semicolon = true := by
  cases haccepts : s.accepts with
  | rules => exact (h.rules haccepts).mpr ⟨n, hn, hstatement⟩
  | declarations =>
    cases hframes : s.frames with
    | nil => simp [accepts, hframes] at haccepts
    | cons frame frames =>
      rw [accepts, hframes] at haccepts
      obtain ⟨inside, ended, gap, -, hcounts⟩ :=
        h.declarations frame (by rw [hframes]; rfl) haccepts
      exact hcounts.flag.mpr (.inl ⟨n, List.mem_of_find?_eq_some hn, hstatement⟩)

theorem Counts.stretchesEnded_eq (h : s.Counts context inside ended gap) :
    stretchesEnded inside = ended := by
  rw [stretchesEnded, h.split, List.dropLast_concat]

/-- Without a declaration the flag says whether a statement without a colon has ended. -/
theorem Flagged.undeclared (h : s.Flagged context ts read) (hbody : s.accepts = .declarations)
    (hinside : ∀ inside, EndsInside read s.opened inside → tokensInside ts s.opened = inside)
    (hnone : ∀ n ∈ s.scope.children, n.isStatement = false) :
    (s.scope.semicolon = true ↔
      ∃ stretch ∈ stretchesEnded (tokensInside ts s.opened), IsColonless stretch) ∧
        (context.strict = true → s.scope.semicolon = false) := by
  cases hframes : s.frames with
  | nil => simp [accepts, hframes] at hbody
  | cons frame frames =>
    have hopened : s.opened = frame.source.position := by rw [opened, hframes]; rfl
    rw [accepts, hframes] at hbody
    obtain ⟨inside, ended, gap, hends, hcounts⟩ :=
      h.declarations frame (by rw [hframes]; rfl) hbody
    have hflag := hcounts.flag
    rw [← hopened] at hends
    rw [hinside inside hends, hcounts.stretchesEnded_eq]
    have hnode : ¬∃ n ∈ s.scope.children, n.isStatement = true := by
      rintro ⟨n, hn, hstatement⟩
      rw [hnone n hn] at hstatement
      contradiction
    rw [or_iff_right hnode] at hflag
    refine ⟨hflag, fun hstrict ↦ ?_⟩
    rw [← Bool.not_eq_true, hflag]
    rintro ⟨stretch, hstretch, hless⟩
    exact hcounts.strict hstrict stretch hstretch hless

/-- A container ends where the tokens behind start with a brace, or where there are none. -/
theorem Flagged.cut (h : s.Flagged context (read ++ behind) read) (hending : ending ≠ .semicolon)
    (hbehind : ∀ t ∈ behind.head?, t.kind = .closeCurly) (hread : s.heldTokens <:+ read)
    (hts : (read ++ behind).Pairwise fun t u ↦ compare t.start u.start = .lt)
    (hspaces : ∀ t ∈ read ++ behind, t.kind = .space → Blanks t.text.toList) :
    (s.cut context ending).Closing context (read ++ behind) := by
  have haccepts : (s.cut context ending).accepts = s.accepts := by
    rw [accepts, frames_cut, accepts]
  have hopened : (s.cut context ending).opened = s.opened := by rw [opened, frames_cut, opened]
  have hframes := frames_cut context s ending
  obtain ⟨hchildren, hsemicolon⟩ | ⟨n, space, hplain, hstatement, hn, hspace, hscope⟩ :=
    @cut_cases (read ++ behind) ending context s hending
  · refine ⟨?_, hchildren ▸ h.children, hframes ▸ h.frames, hframes ▸ h.around⟩
    rw [haccepts, hopened, hchildren, hsemicolon]
    refine ⟨fun hbody hset ↦ ?_, fun hunset n hn hstatement ↦ ?_, fun hbody hnone ↦ ?_⟩
    · rw [List.reverse_reverse]
      exact (h.rules hbody).mp hset
    · rw [List.reverse_reverse] at hn
      rw [h.semicolon hn hstatement] at hunset
      contradiction
    · exact h.undeclared hbody (fun inside hinside ↦ tokensInside_eq hts hinside hbehind)
        fun n hn ↦ hnone n (List.mem_reverse.mpr hn)
  · have hblanks : Blanks (keptText space).toList := by
      refine blanks_keptText fun t ht ↦ ?_
      obtain ⟨hheld, hkind⟩ := hspace t ht
      exact ⟨hkind, hspaces t (List.mem_append_left _ (hread.mem hheld)) hkind⟩
    have hlast : (n :: s.scope.children).reverse.getLast? = some n := by simp
    refine ⟨?_, ?_, hframes ▸ h.frames, hframes ▸ h.around⟩
    · rw [haccepts, hopened, hscope]
      refine ⟨fun _ hset ↦ absurd hset Bool.false_ne_true, fun _ m hm _ ↦ ?_, fun _ hnone ↦ ?_⟩
      · rw [List.reverse_reverse, List.find?_cons, hplain] at hm
        obtain rfl := Option.some.inj hm
        exact ⟨hlast, hblanks⟩
      · rw [hnone n (List.mem_of_getLast? hlast)] at hstatement
        contradiction
    · rw [hscope]
      exact List.forall_mem_cons.mpr ⟨hn, h.children⟩

/-! ## Blocks that are closed -/

variable {frame : Frame} {frames : List Frame}

/-- Around a block that is closed there are only rules. -/
theorem accepts_closeBlock (hframes : s.frames = frame :: frames)
    (h : ∀ frame ∈ frames, frame.head.body = .rules) : s.closeBlock.accepts = .rules := by
  rw [accepts, frames_closeBlock, hframes, List.tail_cons]
  cases frames with
  | nil => rfl
  | cons outer frames => exact h outer List.mem_cons_self

/-- A block is flagged when it is closed, and is no statement itself. -/
theorem Closing.exists_block (h : s.Closing context ts) (hframes : s.frames = frame :: frames) :
    ∃ n : Node, n.isComment = false ∧ n.isStatement = false ∧ n.Flagged context.strict ts ∧
      s.closeBlock.scope = ⟨n :: frame.outer.children, "", false⟩ := by
  have hunset := (h.frames frame (by simp [hframes])).1
  have hfits := h.fits
  rw [accepts, opened, hframes] at hfits
  have hblock := Node.Flagged.block hfits fun n hn ↦ h.children n (List.mem_reverse.mp hn)
  refine ⟨_, rfl, rfl, hblock, ?_⟩
  rw [State.closeBlock, hframes, ← hunset]
  rfl

theorem Closing.closeBlock (h : s.Closing context ts) (hframes : s.frames = frame :: frames) :
    s.closeBlock.Closing context ts := by
  obtain ⟨n, hplain, hstatement, hn, hscope⟩ := h.exists_block hframes
  obtain ⟨⟨-, houter⟩, hrest⟩ := List.forall_mem_cons.mp (hframes ▸ h.frames)
  have haround := h.around
  rw [hframes, List.tail_cons] at haround
  refine ⟨?_, ?_, ?_, ?_⟩
  · rw [accepts_closeBlock hframes haround, hscope]
    refine ⟨fun _ hset ↦ absurd hset Bool.false_ne_true, fun _ m hm hstate ↦ ?_,
      fun hbody ↦ nomatch hbody⟩
    rw [List.reverse_reverse, List.find?_cons, hplain] at hm
    obtain rfl := Option.some.inj hm
    exact absurd (hstatement.symm.trans hstate) Bool.false_ne_true
  · rw [hscope]
    exact List.forall_mem_cons.mpr ⟨hn, houter⟩
  · rw [frames_closeBlock, hframes]
    exact hrest
  · rw [frames_closeBlock, hframes]
    exact fun frame hframe ↦ haround frame (List.mem_of_mem_tail hframe)

/-- Behind a closing brace the parse goes on in a list of rules. -/
theorem Closing.flagged (h : s.Closing context ts) (hframes : s.frames = frame :: frames)
    (hnone : s.statement = none) (read : List Token) : s.closeBlock.Flagged context ts read := by
  obtain ⟨n, hplain, hstatement, -, hscope⟩ := h.exists_block hframes
  have hclosed := h.closeBlock hframes
  have haround := h.around
  rw [hframes, List.tail_cons] at haround
  have hrules := accepts_closeBlock hframes haround
  have hstill := statement_closeBlock s
  rw [hnone] at hstill
  refine ⟨hclosed.children, hclosed.frames, hclosed.around, ?_, ?_, fun _ ↦ ?_, ?_⟩
  · rw [heldTokens_none hstill]
    exact fun _ h ↦ nomatch h
  · rw [hstill]
    exact fun _ h ↦ nomatch h
  · rw [hscope]
    simp [hplain, hstatement]
  · intro outer houter hbody
    rw [← accepts_of_mem_frames houter, hrules] at hbody
    contradiction

theorem Closing.closeAll (h : s.Closing context ts) {frames : List Frame}
    (hframes : s.frames = frames) : s.closeAll.Closing context ts := by
  induction frames generalizing s with
  | nil => rwa [closeAll_of_nil hframes]
  | cons frame frames ih =>
    rw [closeAll_of_cons hframes]
    exact ih (h.closeBlock hframes) (by rw [frames_closeBlock, hframes, List.tail_cons])

/-! ## A whole run -/

/-- Behind a brace that closes nothing there are no blocks and no statements any more. -/
theorem Flagged.stop (h : s.Flagged context ts read) (hframes : s.frames = []) (text : String)
    (ended : Bool) (later : List Token) :
    ({ s with statement := none, ended }.addText text).Flagged context ts later where
  children := h.children
  frames := h.frames
  around := h.around
  held _ h := nomatch h
  first _ h := nomatch h
  rules := h.rules
  declarations := by
    intro frame hframe
    change frame ∈ s.frames.head? at hframe
    rw [hframes] at hframe
    contradiction

/-- The flags are kept right by a token of the text, whatever there is behind it. -/
theorem Flagged.advance (h : s.Flagged context ts read) (hs : s.Sound)
    (hfatal : s.fatal? t = none)
    (hread : s.heldTokens <:+ read)
    (hts : ts.Pairwise fun t u ↦ compare t.start u.start = .lt)
    (hspaces : ∀ t ∈ ts, t.kind = .space → Blanks t.text.toList) (hfront : read ++ [t] <+: ts)
    (hrepair : context.strict = true → s.repair? t = none) :
    (s.advance context t).Flagged context ts (read ++ [t]) := by
  cases hended : s.ended with
  | true =>
    obtain ⟨hframes, hnone⟩ := hs.ended hended
    have hstop := h.stop hframes t.text true (read ++ [t])
    rw [State.advance, if_pos hended]
    rwa [← hnone, ← hended] at hstop
  | false =>
    have hnot : ¬s.ended = true := ne_true_of_eq_false hended
    by_cases hopen : t.kind = .openCurly
    · have haccepts : s.accepts = .rules := by
        cases hbody : s.accepts with
        | rules => rfl
        | declarations => simp [fatal?, hnot, hopen, hbody] at hfatal
      have hblock := h.openBlock haccepts hopen hread
      rwa [State.advance, if_neg hnot, hopen]
    by_cases hclose : t.kind = .closeCurly
    · cases hframes : s.frames with
      | nil =>
        have hstop := h.stop hframes (keptText s.heldTokens ++ t.text) true (read ++ [t])
        rw [hframes] at hstop
        rwa [State.advance, if_neg hnot, hclose, hframes]
      | cons frame frames =>
        obtain ⟨later, rfl⟩ := hfront
        rw [List.append_assoc] at h hts hspaces ⊢
        have hnone : (s.cut context .closeCurly).statement = none := by rw [cut_eq]
        have hcut : (s.cut context .closeCurly).Closing context (read ++ ([t] ++ later)) :=
          h.cut (by simp) (fun u hu ↦ Option.some.inj hu ▸ hclose) hread hts hspaces
        rw [advance_brace context hclose hended hframes]
        exact hcut.flagged ((frames_cut context s _).trans hframes) hnone _
    · obtain ⟨hhold, hkind, hspacing⟩ | ⟨hnone, hbetween, comments, pending, hcomments, hnext⟩ |
          ⟨statement, hstatement, hkind, hnext⟩ := advance_cases context hended ⟨hopen, hclose⟩
      · rw [hhold]
        exact h.hold ⟨hopen, hclose⟩ hkind hspacing
      · rw [hnext]
        exact h.between hnone hbetween hcomments pending
      · rw [hnext]
        refine h.conclude hstatement hkind fun hstrict ↦ ?_
        have hkept := hrepair hstrict
        rwa [repair?, if_neg hnot, hkind, hstatement] at hkept

end Parse.State

namespace Parse

/-- Strict parsing goes on only where nothing is to be repaired. -/
theorem flagged_reached (context : Context) (text : String)
    (hfatal : State.fatalIn? context {} (tokenize text) = none)
    (hrepairs : context.strict = true → State.repairsIn context {} (tokenize text) = []) :
    (reached context (tokenize text)).Traces context (tokenize text) ∧
      (reached context (tokenize text)).Flagged context (tokenize text) (tokenize text) := by
  have hspaces := blanks_of_chained (chained_tokenize text).1
  have hstarts := (Cursor.ofString text).pairwise_tokens
  have hall := reached_induction (motive := fun s read ↦ s = reached context read ∧
    s.Traces context read ∧ (read <+: tokenize text → s.Flagged context (tokenize text) read))
    context text hfatal ⟨rfl, State.traces_start context, fun _ ↦ State.flagged_start _ _⟩ ?_
  · exact ⟨hall.2.1, hall.2.2 List.prefix_rfl⟩
  rintro s read t ⟨rfl, htraces, hflagged⟩ hs htext ht hnone
  refine ⟨(reached_concat context read t).symm, htraces.advance hs htext ht hnone,
    fun hfront ↦ ?_⟩
  have hread := (List.prefix_append read [t]).trans hfront
  obtain ⟨before, hheld, -⟩ := htraces.held htext
  refine (hflagged hread).advance hs hnone ⟨before, hheld.symm⟩ hstarts hspaces hfront
    fun hstrict ↦ ?_
  obtain ⟨later, hlater⟩ := hfront
  have hrest := hrepairs hstrict
  rw [← hlater, List.append_assoc] at hrest hfatal
  rw [State.fatalIn?_append, Option.or_eq_none_iff] at hfatal
  rw [repairsIn_append context _ hfatal.1, List.append_eq_nil_iff] at hrest
  have hfirst : State.repairsIn context (reached context read) (t :: later) = [] := hrest.2
  rw [State.repairsIn, hnone, if_neg (by simp), List.append_eq_nil_iff] at hfirst
  exact Option.toList_eq_nil_iff.mp hfirst.1

/-- The end of the text closes what is open, and the flags of the tree say what they should. -/
theorem flagged_treeOf (context : Context) (text : String)
    (hfatal : State.fatalIn? context {} (tokenize text) = none)
    (hrepairs : context.strict = true → State.repairsIn context {} (tokenize text) = []) :
    let tree := treeOf context (tokenize text)
    FlagFits context.strict (tokenize text) .rules {} tree.rules tree.after tree.semicolon ∧
      ∀ n ∈ tree.rules, n.Flagged context.strict (tokenize text) := by
  obtain ⟨htraces, hflagged⟩ := flagged_reached context text hfatal hrepairs
  obtain ⟨hsound, -⟩ := prints_reached context text
  have hspaces := blanks_of_chained (chained_tokenize text).1
  have hstarts := (Cursor.ofString text).pairwise_tokens
  change (tokenize text).Pairwise _ at hstarts
  have hheld : (reached context (tokenize text)).heldTokens <:+ tokenize text := by
    cases hstatement : (reached context (tokenize text)).statement with
    | none =>
      rw [State.heldTokens_none hstatement]
      exact List.nil_suffix
    | some statement =>
      obtain ⟨-, before, hread, -⟩ := htraces.holds statement hstatement
      rw [State.heldTokens_some hstatement]
      exact ⟨before, hread.symm⟩
  have hcut : ((reached context (tokenize text)).cut context .endOfText).Closing context
      (tokenize text ++ []) := by
    refine State.Flagged.cut ?_ (by simp) (fun _ h ↦ nomatch h) hheld ?_ ?_ <;>
      rwa [List.append_nil]
  rw [List.append_nil] at hcut
  have hclosed := hcut.closeAll rfl
  have hconclusion : (reached context (tokenize text)).conclusion context =
      ((reached context (tokenize text)).cut context .endOfText).closeAll := by
    unfold State.conclusion
    cases hended : (reached context (tokenize text)).ended with
    | false => rfl
    | true =>
      obtain ⟨hframes, hnone⟩ := hsound.ended hended
      rw [if_pos rfl, State.cut_of_none context _ hnone, State.closeAll_of_nil hframes]
  rw [← hconclusion] at hclosed
  have hframes : ((reached context (tokenize text)).conclusion context).frames = [] := by
    rw [hconclusion]
    exact (State.closeAll_closed _).1
  have hfits := hclosed.fits
  rw [State.accepts, State.opened, hframes] at hfits
  exact ⟨hfits, fun n hn ↦ hclosed.children n (List.mem_reverse.mp hn)⟩

end Parse

open Parse

/-- In the tree of a parsed text the flags say what they should. -/
theorem flagged_of_parse {options : Options} {text : String} {tree : Tree}
    (h : parse options text = .ok tree) :
    FlagFits options.strict (tokenize text) .rules {} tree.rules tree.after tree.semicolon ∧
      ∀ n ∈ tree.rules, n.Flagged options.strict (tokenize text) := by
  obtain ⟨hfatal, rfl⟩ := treeOf_of_parse h
  refine flagged_treeOf options.context text hfatal fun hstrict ↦ ?_
  exact ((parse_strict_eq_ok_iff options text hstrict _).mp h).2.1

end Stylesheet
