import Stylesheet.Proofs.Checked.Machine
import Stylesheet.Proofs.Parse.Strict

/-!
# The machine follows the parse

Each state of a parse is one of the machine (`machineOf`), and what the parse does the machine does
with it. Nothing that the machine looks up is missing on the way.
-/

namespace Stylesheet.Checked

open Parse

/-- The container as it is on the stack. -/
def layerOf (frames : List Frame) (pending : String) : Layer where
  container := containerOf frames
  accepts := State.accepts { frames }
  pending
  start := (frames.head?.map Frame.position).getD {}

/-- The containers around the innermost. Their pending texts went into the blocks inside. -/
def layersAround : List Frame → List Layer
  | [] => []
  | _ :: frames => layerOf frames "" :: layersAround frames

/-- The state, with the index of the first token of the statement if there is one. -/
def machineOf (context : Context) (s : State) (first : Option Nat) : Machine where
  arena := arenaOf context.file s.frames s.scope.children.reverse
    ⟨childrenOf s.frames s.scope.children.reverse, "", s.scope.semicolon⟩
  layers := layerOf s.frames s.scope.pending :: layersAround s.frames
  statement := first
  log := s.log

/-- A parse that fails makes the machine fail. -/
def outcomeOf (context : Context) : Except Failure State → Run Machine
  | .ok s => .ok (machineOf context s none)
  | .error failure => .error (.failed failure)

variable {context : Context} {s : State} {first : Option Nat}

namespace Machine

/-! ## Containers -/

@[simp]
theorem top_machineOf : (machineOf context s first).top = .ok (layerOf s.frames s.scope.pending) :=
  rfl

theorem map_container_layers (frames : List Frame) (pending : String) :
    (layerOf frames pending :: layersAround frames).map Layer.container = containersOf frames := by
  induction frames generalizing pending with
  | nil => rfl
  | cons frame frames ih => rw [containersOf, ← ih ""]; rfl

/-- The stack is never empty, and nothing on it is a leaf. -/
@[simp]
theorem intact_machineOf :
    (machineOf context s first).intact = .ok (machineOf context s first) := by
  refine if_pos ⟨List.cons_ne_nil _ _, List.all_eq_true.mpr fun layer hlayer ↦ ?_⟩
  have hcontainer := List.mem_map_of_mem (f := Layer.container) hlayer
  exact holds_arenaOf _ _ _ _ (map_container_layers s.frames s.scope.pending ▸ hcontainer)

@[simp]
theorem addText_machineOf (text : String) :
    (machineOf context s first).addText text = .ok (machineOf context (s.addText text) first) :=
  rfl

@[simp]
theorem note_machineOf (event : Event) :
    (machineOf context s first).note event = machineOf context (s.note event) first :=
  rfl

@[simp]
theorem fail_machineOf (kind : ErrorKind) (position : Position) :
    (machineOf context s first).fail kind position =
      outcomeOf context (s.fail kind position) :=
  rfl

@[simp]
theorem forget_machineOf :
    { machineOf context s first with statement := none } = machineOf context s none :=
  rfl

theorem add_leaf_machineOf (source : Source) (leaf : Leaf) :
    (machineOf context s first).add source (.leaf leaf) =
      .ok (machineOf context (s.addLeaf source leaf) first) := by
  have hadd := add?_arenaOf context.file s.frames s.scope.children.reverse
    ⟨childrenOf s.frames s.scope.children.reverse, "", s.scope.semicolon⟩ source (.leaf leaf)
  rw [push_leaf, ← childrenOf_concat s.frames _ (.leaf source leaf), ← List.reverse_cons] at hadd
  change reach (Arena.add? (arenaOf _ _ _ _) ⟨containerOf s.frames, _, _⟩) >>= _ = _
  rw [hadd]
  rfl

@[simp]
theorem setSemicolon_machineOf (semicolon : Bool) :
    (machineOf context s first).setSemicolon semicolon =
      .ok (machineOf context (s.setSemicolon semicolon) first) := by
  rw [setSemicolon, top_machineOf, ok_bind]
  change reach (Arena.alter? (arenaOf _ _ _ _) _ (containerOf s.frames)) >>= _ = _
  rw [alter?_arenaOf]
  rfl

theorem openBlock_machineOf (start : Position) (head : Head) :
    (machineOf context s first).openBlock context start head =
      .ok (machineOf context (s.openBlock (context.source start) head) first) := by
  let ns := s.scope.children.reverse
  let content : Content := .block head [] "" false
  let inside : Arena.Filling := ⟨childrenOf s.frames ns, "", s.scope.semicolon⟩
  let grown := arenaOf context.file s.frames ns
    { inside with children := inside.children ++ [entered s.frames ns] }
  have hadd : (machineOf context s first).add (context.source start) content =
      .ok { machineOf context { s with scope := { s.scope with pending := "" } } first with
        arena := grown.push ⟨containerOf s.frames, context.source start, content⟩ } := by
    change reach (Arena.add? (arenaOf _ _ _ _) ⟨containerOf s.frames, _, _⟩) >>= _ = _
    rw [add?_arenaOf]
    rfl
  have hid : (machineOf context s first).arena.size = entered s.frames ns :=
    size_arenaOf context.file s.frames ns inside
  have hchange := alter?_push ⟨containerOf s.frames, context.source start, content⟩
    (alter?_arenaOf context.file s.frames ns
      { inside with children := inside.children ++ [entered s.frames ns] }
      fun inside ↦ { inside with semicolon := false })
  rw [openBlock, hid, hadd, ok_bind]
  change (reach (Arena.alter? (grown.push _) _ (containerOf s.frames)) >>= _) >>= _ = _
  rw [hchange]
  rfl

theorem closeLayer_machineOf {frame : Frame} {frames : List Frame}
    (hframes : s.frames = frame :: frames) :
    (machineOf context s first).closeLayer = .ok (machineOf context s.closeBlock first) := by
  obtain ⟨scope, frames', statement, ended, log⟩ := s
  obtain rfl : frames' = frame :: frames := hframes
  change reach (Arena.alter? (arenaOf _ _ _ _) _ (containerOf (frame :: frames))) >>= _ = _
  rw [alter?_arenaOf]
  have hclosed := arenaOf_closed context.file frame frames scope.children.reverse scope.pending
    scope.semicolon
  dsimp only at hclosed
  rw [← List.reverse_cons] at hclosed
  exact congrArg (fun arena ↦ Except.ok
    (Machine.mk arena (layerOf frames "" :: layersAround frames) first log)) hclosed

/-! ## Statements -/

theorem outcomeOf_bind {result : Except Failure State} {f : Machine → Run Machine}
    {g : State → Except Failure State}
    (h : ∀ s, f (machineOf context s none) = outcomeOf context (g s)) :
    outcomeOf context result >>= f = outcomeOf context (result >>= g) := by
  cases result with
  | error failure => rfl
  | ok s => exact h s

section

variable {text : String} {start stop : Nat} {t : Token} {ts : List Token} {statement : Statement}

theorem rule_machineOf (h : (Sheet.ofText context text).Spans start stop ts)
    (ht : (Sheet.ofText context text).token start = .ok t) :
    (machineOf context s first).rule (Sheet.ofText context text) start stop =
      .ok (machineOf context (s.openBlock (context.source t.start)
        (.rule (Selector.ofTokens s.scope.pending ts))) first) := by
  rw [rule, ht, ok_bind, top_machineOf, ok_bind, h.selector_eq, ok_bind]
  exact openBlock_machineOf t.start _

theorem atRule_block (h : (Sheet.ofText context text).Spans start stop (t :: ts))
    (hkind : t.kind = .atWord) :
    (machineOf context s first).atRule (Sheet.ofText context text) start stop none =
      let p := Prelude.ofTokens s.scope.pending t ts
      .ok (machineOf context (s.openBlock (context.source t.start)
        (.atRule p (bodyKind p.name))) first) := by
  rw [atRule, h.token_eq, ok_bind, top_machineOf, ok_bind, h.prelude_eq hkind, ok_bind]
  exact openBlock_machineOf t.start _

theorem atRule_statement (h : (Sheet.ofText context text).Spans start stop (t :: ts))
    (hkind : t.kind = .atWord) (ending : Ending) :
    (machineOf context s first).atRule (Sheet.ofText context text) start stop (some ending) =
      .ok (machineOf context ((s.addLeaf (context.source t.start)
        (.statement (Prelude.ofTokens s.scope.pending t ts))).setSemicolon
          (ending == .semicolon)) first) := by
  rw [atRule, h.token_eq, ok_bind, top_machineOf, ok_bind, h.prelude_eq hkind, ok_bind]
  dsimp only
  rw [add_leaf_machineOf, ok_bind, setSemicolon_machineOf]
  rfl

theorem keep_machineOf (h : (Sheet.ofText context text).Spans start stop statement.tokens) :
    (machineOf context s none).keep (Sheet.ofText context text) start stop =
      outcomeOf context (s.repairStatement context statement) := by
  have hfirst : (Sheet.ofText context text).token start = .ok statement.first := h.token_eq
  rw [keep, hfirst, ok_bind, State.repairStatement]
  change (if context.strict then _ else _) = _
  split
  · rfl
  · rw [h.slice_eq, ok_bind]
    rfl

theorem declaration_machineOf
    (h : (Sheet.ofText context text).Spans start stop statement.tokens) (ending : Ending) :
    (machineOf context s none).declaration (Sheet.ofText context text) start stop ending =
      outcomeOf context (s.endDeclaration context statement ending) := by
  have hfirst : (Sheet.ofText context text).token start = .ok statement.first := h.token_eq
  have hpending : (layerOf s.frames s.scope.pending).pending = s.scope.pending := rfl
  rw [declaration, top_machineOf, ok_bind, h.declaration_eq, ok_bind, hpending]
  unfold State.endDeclaration
  cases Declaration.ofTokens? s.scope.pending statement.tokens with
  | some d =>
    dsimp only
    rw [hfirst, ok_bind, add_leaf_machineOf, ok_bind, setSemicolon_machineOf]
    rfl
  | none =>
    cases ending with
    | endOfText =>
      dsimp only [missingValue]
      rw [hfirst, ok_bind, top_machineOf, ok_bind, h.slice_eq, ok_bind, add_leaf_machineOf, ok_bind,
        setSemicolon_machineOf]
      rfl
    | closeCurly => exact keep_machineOf h
    | semicolon =>
      dsimp only [missingValue]
      rw [keep_machineOf h]
      refine outcomeOf_bind fun s ↦ ?_
      rw [addText_machineOf, ok_bind, setSemicolon_machineOf]
      rfl

theorem atTop_machineOf (h : (Sheet.ofText context text).Spans start stop statement.tokens)
    (ending : Ending) :
    (machineOf context s none).atTop (Sheet.ofText context text) start stop ending =
      outcomeOf context (s.endAtTop context statement ending) := by
  have hfirst : (Sheet.ofText context text).token start = .ok statement.first := h.token_eq
  rw [atTop, hfirst, ok_bind, State.endAtTop, Statement.isAtRule]
  simp only [beq_iff_eq]
  split
  · next hkind =>
    rw [atRule_statement h hkind]
    rfl
  · rw [keep_machineOf h]
    refine outcomeOf_bind fun s ↦ ?_
    split <;> rfl

theorem endStatement_machineOf
    (h : (Sheet.ofText context text).Spans start stop statement.tokens) (ending : Ending) :
    (machineOf context s none).endStatement (Sheet.ofText context text) start stop ending =
      outcomeOf context (s.endStatement context statement ending) := by
  have haccepts : (layerOf s.frames s.scope.pending).accepts = s.accepts := rfl
  rw [endStatement, top_machineOf, ok_bind, haccepts, State.endStatement]
  cases s.accepts with
  | declarations => exact declaration_machineOf h ending
  | rules => exact atTop_machineOf h ending

end

/-! ## Statements that are held -/

/-- The index is that of the first token of the statement, which goes on up to `stop`. -/
inductive Marks (sheet : Sheet) (stop : Nat) : Option Statement → Option Nat → Prop
  | nothing : Marks sheet stop none none
  | held {statement : Statement} {start : Nat} (spans : sheet.Spans start stop statement.tokens)
      (first : statement.first.kind ≠ .space) : Marks sheet stop (some statement) (some start)

theorem Marks.cases {sheet : Sheet} {stop : Nat} (h : Marks sheet stop s.statement first) :
    (s.statement = none ∧ first = none) ∨
      ∃ statement start, s.statement = some statement ∧ first = some start ∧
        sheet.Spans start stop statement.tokens ∧ statement.first.kind ≠ .space := by
  generalize s.statement = held at h
  cases h with
  | nothing => exact .inl ⟨rfl, rfl⟩
  | held spans hfirst => exact .inr ⟨_, _, rfl, rfl, spans, hfirst⟩

theorem cutStatement_machineOf {text : String} {stop : Nat}
    (h : Marks (Sheet.ofText context text) stop s.statement first) (ending : Ending) :
    (machineOf context s first).cutStatement (Sheet.ofText context text) stop ending =
      outcomeOf context (s.cutStatement context ending) := by
  unfold State.cutStatement
  generalize s.statement = held at h
  cases h with
  | nothing => rfl
  | @held statement start spans hfirst =>
    obtain ⟨trimmed, htrimmed, hfront, hspace⟩ := spans.trimEnd
    rw [← Statement.splitSpace_eq hfirst] at hfront hspace
    change (Sheet.trimEnd _ start stop >>= _) = _
    rw [htrimmed, ok_bind]
    change (endStatement (machineOf context { s with statement := none } none) _ _ _ _ >>= _) = _
    rw [endStatement_machineOf hfront]
    refine outcomeOf_bind fun s ↦ ?_
    rw [hspace.slice_eq, ok_bind]
    rfl

theorem exists_of_repaired {log : List Event} {next s' : State} {repair : Option Event}
    (h : State.repaired context log next repair = .ok s') : ∃ log', s' = next.withLog log' := by
  cases repair with
  | none => exact ⟨next.log, (Except.ok.inj h).symm⟩
  | some e =>
    dsimp only [State.repaired] at h
    split at h
    · contradiction
    · exact ⟨e :: next.log, (Except.ok.inj h).symm⟩

theorem eq_of_endStatement {s' : State} {statement : Statement} {ending : Ending}
    (h : s.endStatement context statement ending = .ok s') :
    s' = { s with scope := s'.scope, log := s'.log } := by
  rw [State.endStatement_eq, State.conclude_eq] at h
  obtain ⟨log, rfl⟩ := exists_of_repaired h
  rfl

theorem eq_of_cutStatement {s' : State} {ending : Ending}
    (h : s.cutStatement context ending = .ok s') :
    s' = { s with scope := s'.scope, statement := none, log := s'.log } := by
  rw [State.cutStatement_eq, State.cut_eq] at h
  obtain ⟨log, rfl⟩ := exists_of_repaired h
  rfl

/-! ## Tokens -/

/-- The machine has come as far as the parse. -/
inductive Follows (sheet : Sheet) (index : Nat) : Run Machine → Except Failure State → Prop
  | ok {s : State} {first : Option Nat} (going : s.ended = false)
      (marks : Marks sheet index s.statement first) :
      Follows sheet index (.ok (machineOf sheet.context s first)) (.ok s)
  | error (failure : Failure) : Follows sheet index (.error (.failed failure)) (.error failure)

section

variable {text : String} {index : Nat} {t : Token}

theorem follows_outcomeOf {result : Except Failure State}
    (h : ∀ s, result = .ok s → s.ended = false ∧ s.statement = none) :
    Follows (Sheet.ofText context text) index (outcomeOf context result) result := by
  cases result with
  | error failure => exact .error failure
  | ok s =>
    obtain ⟨hgoing, hnone⟩ := h s rfl
    refine .ok hgoing ?_
    rw [hnone]
    exact .nothing

/-- A statement that has been started goes on with the token. -/
theorem follows_push {statement : Statement} {start : Nat} (hgoing : s.ended = false)
    (spans : (Sheet.ofText context text).Spans start index statement.tokens)
    (hfirst : statement.first.kind ≠ .space)
    (ht : (Sheet.ofText context text).Spans index (index + 1) [t]) :
    Follows (Sheet.ofText context text) (index + 1) (.ok (machineOf context s (some start)))
      (.ok { s with statement := some (statement.push t) }) := by
  have hpushed := spans.append ht
  rw [← Statement.tokens_push] at hpushed
  exact Follows.ok (s := { s with statement := some (statement.push t) }) hgoing
    (.held hpushed hfirst)

theorem follows_repairUnclosed {f : Machine → Run Machine} {g : State → Except Failure State}
    (kind : ErrorKind)
    (h : ∀ s', s'.statement = s.statement → s'.ended = s.ended →
      Follows (Sheet.ofText context text) index (f (machineOf context s' first)) (g s')) :
    Follows (Sheet.ofText context text) index
      ((machineOf context s first).repairUnclosed (Sheet.ofText context text) t kind >>= f)
      (s.repairUnclosed context t kind >>= g) := by
  have hmode : (Sheet.ofText context text).context.strict = context.strict := rfl
  rw [repairUnclosed, State.repairUnclosed, hmode]
  split
  · exact h s rfl rfl
  · split
    · exact .error _
    · exact h (s.note _) rfl rfl

/-- An at-word that has one byte has no name. -/
theorem utf8ByteSize_atWord (ht : t.Shaped) (hkind : t.kind = .atWord) :
    t.text.utf8ByteSize = 1 ↔ t.text = "@" := by
  obtain ⟨name, hname⟩ := ht.atWord hkind
  have hone : Char.utf8Size '@' = 1 := rfl
  rw [hname, Text.utf8ByteSize_ofList, Text.byteLength_cons, hone, Nat.add_eq_left,
    Text.byteLength_eq_zero_iff, ← String.toList_inj, String.toList_ofList]
  exact ⟨fun h ↦ by rw [h]; rfl, fun h ↦ (List.cons.inj h).2⟩

theorem follows_begin (hgoing : s.ended = false)
    (h : Marks (Sheet.ofText context text) index s.statement first)
    (ht : (Sheet.ofText context text).Spans index (index + 1) [t]) (hspace : t.kind ≠ .space) :
    Follows (Sheet.ofText context text) (index + 1) ((machineOf context s first).begin index t)
      (s.addToStatement t) := by
  unfold State.addToStatement
  obtain ⟨hnone, rfl⟩ | ⟨statement, start, hstatement, rfl, spans, hfirst⟩ := h.cases
  · have hname : t.kind = .atWord ∧ t.text.utf8ByteSize = 1 ↔ t.kind = .atWord ∧ t.text = "@" :=
      and_congr_right fun hkind ↦ utf8ByteSize_atWord (ht.shaped t List.mem_cons_self) hkind
    rw [hnone]
    change Follows _ _ (if t.kind = .atWord ∧ t.text.utf8ByteSize = 1 then _ else _) _
    simp only [hname]
    split
    · exact .error _
    · exact Follows.ok (s := { s with statement := some { first := t } }) hgoing (.held ht hspace)
  · rw [hstatement]
    exact follows_push hgoing spans hfirst ht

theorem follows_readSpace (hgoing : s.ended = false)
    (h : Marks (Sheet.ofText context text) index s.statement first)
    (ht : (Sheet.ofText context text).Spans index (index + 1) [t]) :
    Follows (Sheet.ofText context text) (index + 1) ((machineOf context s first).readSpace t)
      (.ok (s.readSpace t)) := by
  unfold State.readSpace
  obtain ⟨hnone, rfl⟩ | ⟨statement, start, hstatement, rfl, spans, hfirst⟩ := h.cases
  · rw [hnone]
    exact Follows.ok (s := s.addText t.text) hgoing (hnone ▸ .nothing)
  · rw [hstatement]
    exact follows_push hgoing spans hfirst ht

theorem follows_readComment (hgoing : s.ended = false)
    (h : Marks (Sheet.ofText context text) index s.statement first)
    (ht : (Sheet.ofText context text).Spans index (index + 1) [t]) (hkind : t.kind = .comment) :
    Follows (Sheet.ofText context text) (index + 1)
      ((machineOf context s first).readComment (Sheet.ofText context text) t)
      (s.readComment context t) := by
  refine follows_repairUnclosed .unclosedComment fun s' hstatement hended ↦ ?_
  rw [← hstatement] at h
  rw [← hended] at hgoing
  obtain ⟨hnone, rfl⟩ | ⟨statement, start, hstatement, rfl, spans, hfirst⟩ := h.cases
  · rw [hnone]
    dsimp only
    change Follows _ _ (top _ >>= _) _
    rw [top_machineOf, ok_bind, comment_eq _ (ht.shaped t List.mem_cons_self) hkind, ok_bind,
      add_leaf_machineOf]
    exact .ok hgoing (hnone ▸ .nothing)
  · rw [hstatement]
    exact follows_push hgoing spans hfirst ht

theorem follows_readOpenCurly (hgoing : s.ended = false)
    (h : Marks (Sheet.ofText context text) index s.statement first)
    (ht : (Sheet.ofText context text).Spans index (index + 1) [t]) :
    Follows (Sheet.ofText context text) (index + 1)
      ((machineOf context s first).readOpenCurly (Sheet.ofText context text) index t)
      (s.readOpenCurly context t) := by
  have haccepts : (layerOf s.frames s.scope.pending).accepts = s.accepts := rfl
  rw [readOpenCurly, top_machineOf, ok_bind, haccepts]
  unfold State.readOpenCurly
  cases s.accepts with
  | declarations => exact .error _
  | rules =>
    obtain ⟨hnone, rfl⟩ | ⟨statement, start, hstatement, rfl, spans, -⟩ := h.cases
    · rw [hnone]
      dsimp only
      change Follows _ _ (rule _ _ index index) _
      rw [rule_machineOf ht.nil ht.token_eq]
      exact .ok hgoing .nothing
    · have htoken : (Sheet.ofText context text).token start = .ok statement.first := spans.token_eq
      have hrule : statement.isAtRule = true ↔ statement.first.kind = .atWord := beq_iff_eq
      rw [hstatement]
      dsimp only
      change Follows _ _ (Sheet.token _ start >>= _) _
      rw [htoken, ok_bind]
      simp only [hrule, forget_machineOf]
      split
      · next hkind =>
        rw [atRule_block spans hkind]
        exact .ok hgoing .nothing
      · rw [rule_machineOf spans htoken]
        exact .ok hgoing .nothing

theorem follows_readSemicolon (hgoing : s.ended = false)
    (h : Marks (Sheet.ofText context text) index s.statement first)
    (ht : (Sheet.ofText context text).Spans index (index + 1) [t]) (hkind : t.kind = .semicolon) :
    Follows (Sheet.ofText context text) (index + 1)
      ((machineOf context s first).readSemicolon (Sheet.ofText context text) index)
      (s.readSemicolon context t) := by
  have htext : t.text = ";" := (ht.shaped t List.mem_cons_self).single ';' (by rw [hkind]; rfl)
  unfold State.readSemicolon
  obtain ⟨hnone, rfl⟩ | ⟨statement, start, hstatement, rfl, spans, -⟩ := h.cases
  · rw [hnone, htext]
    exact Follows.ok (s := s.addText ";") hgoing (hnone ▸ .nothing)
  · rw [hstatement]
    change Follows _ _
      (endStatement (machineOf context { s with statement := none } none) _ _ _ _) _
    rw [endStatement_machineOf spans]
    refine follows_outcomeOf fun s' hs' ↦ ?_
    rw [eq_of_endStatement hs']
    exact ⟨hgoing, rfl⟩

theorem follows_readCloseCurly (hgoing : s.ended = false)
    (h : Marks (Sheet.ofText context text) index s.statement first) (hframes : s.frames ≠ []) :
    Follows (Sheet.ofText context text) (index + 1)
      ((machineOf context s first).readCloseCurly (Sheet.ofText context text) index)
      (s.readCloseCurly context t) := by
  obtain ⟨frame, frames, hframes⟩ := List.exists_cons_of_ne_nil hframes
  rw [readCloseCurly, cutStatement_machineOf h]
  unfold State.readCloseCurly
  rw [hframes]
  dsimp only
  cases hcut : s.cutStatement context .closeCurly with
  | error failure => exact .error failure
  | ok s' =>
    have hs' := eq_of_cutStatement hcut
    have hframes' : s'.frames = frame :: frames := by rw [hs', ← hframes]
    change Follows _ _ (closeLayer (machineOf context s' none)) _
    rw [closeLayer_machineOf hframes']
    refine Follows.ok (s := s'.closeBlock) ?_ ?_
    · rw [State.ended_closeBlock, hs']
      exact hgoing
    · rw [State.statement_closeBlock, hs']
      exact .nothing

/-- A token takes the machine as far as the parse, if it does not end the stylesheet. -/
theorem follows_step (hgoing : s.ended = false)
    (h : Marks (Sheet.ofText context text) index s.statement first)
    (ht : (Sheet.ofText context text).Spans index (index + 1) [t])
    (hopen : t.kind = .closeCurly → s.frames ≠ []) :
    Follows (Sheet.ofText context text) (index + 1)
      ((machineOf context s first).step (Sheet.ofText context text) index t)
      (s.step context t) := by
  rw [State.step, hgoing, if_neg Bool.false_ne_true, step]
  cases hkind : t.kind with
  | space => exact follows_readSpace hgoing h ht
  | comment => exact follows_readComment hgoing h ht hkind
  | string =>
    refine follows_repairUnclosed .unclosedQuote fun s' hstatement hended ↦ ?_
    exact follows_begin (hended.trans hgoing) (hstatement ▸ h) ht (by simp [hkind])
  | openCurly => exact follows_readOpenCurly hgoing h ht
  | semicolon => exact follows_readSemicolon hgoing h ht hkind
  | closeCurly => exact follows_readCloseCurly hgoing h (hopen hkind)
  | word | atWord | colon | other => exact follows_begin hgoing h ht (by simp [hkind])

end

end Machine

end Stylesheet.Checked
