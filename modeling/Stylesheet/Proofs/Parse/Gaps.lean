import Stylesheet.Proofs.Parse.Places
import Stylesheet.Proofs.Parse.Shapes

/-!
# Gaps between nodes

Strict parsing keeps no text that makes no node. What stands between nodes is then blanks and
semicolons alone, in every container (`gapped_of_parse`): these are the tokens that leave no
statement behind, and the white space that a statement is cut off from.
-/

namespace Stylesheet

open Text Piece

/-- In front of the node and between the nodes inside of it there are gaps. -/
inductive Node.Gapped : Node → Prop
  | leaf {source : Source} {l : Leaf} (hbefore : IsGap l.before.toList) : Gapped (.leaf source l)
  | block {source : Source} {head : Head} {children : List Node} {after : String}
      {semicolon : Bool} (hbefore : IsGap head.before.toList)
      (hchildren : ∀ n ∈ children, Gapped n) (hafter : IsGap after.toList) :
      Gapped (.block source head children after semicolon)

structure Tree.Gapped (t : Tree) : Prop where
  rules : ∀ n ∈ t.rules, n.Gapped
  after : IsGap t.after.toList

namespace Parse.State

/-- What is pending is a gap, and so is what has been between the nodes read so far. -/
structure Gapped (s : State) : Prop where
  ended : s.ended = false
  children : ∀ n ∈ s.scope.children, n.Gapped
  pending : IsGap s.scope.pending.toList
  frames : ∀ frame ∈ s.frames,
    IsGap frame.head.before.toList ∧ ∀ n ∈ frame.outer.children, n.Gapped
  held : ∀ t ∈ s.heldTokens, t.kind = .space → Blanks t.text.toList

variable {context : Context} {s : State} {t : Token} {statement : Statement} {ending : Ending}
variable {leaf : Leaf}

theorem before_leaf? (h : s.leaf? statement ending = some leaf) :
    leaf.before = s.scope.pending := by
  obtain ⟨-, d, rfl, hbefore⟩ | ⟨-, -, rfl⟩ := leaf?_eq_some h
  · exact hbefore
  · rfl

theorem before_blockHead (context : Context) (s : State) (brace : Token) :
    (s.blockHead context brace).2.before = s.scope.pending := by
  unfold blockHead
  cases s.statement with
  | none => rfl
  | some statement =>
    dsimp only
    split <;> rfl

/-! ## Steps -/

theorem Gapped.addText (h : s.Gapped) {text : String} (htext : IsGap text.toList) :
    (s.addText text).Gapped :=
  { h with
    pending := by
      have hboth := isGap_append h.pending htext
      rwa [← String.toList_append] at hboth }

theorem Gapped.hold (h : s.Gapped) (ht : t.kind = .space → Blanks t.text.toList) :
    (s.hold t).Gapped := by
  have hheld : ∀ u ∈ (s.hold t).heldTokens, u.kind = .space → Blanks u.text.toList := by
    rw [heldTokens_hold]
    exact List.forall_mem_append.mpr ⟨h.held, List.forall_mem_singleton.mpr ht⟩
  obtain ⟨scope, frames, statement, ended, log⟩ := s
  cases statement <;> exact { h with held := hheld }

theorem Gapped.addLeaf (h : s.Gapped) (source : Source) (hbefore : leaf.before = s.scope.pending) :
    (s.addLeaf source leaf).Gapped :=
  { h with
    children := List.forall_mem_cons.mpr ⟨.leaf (hbefore ▸ h.pending), h.children⟩
    pending := isGap_nil }

theorem Gapped.drop (h : s.Gapped) : { s with statement := none }.Gapped :=
  { h with held := fun _ hmem ↦ nomatch hmem }

theorem Gapped.conclude (context : Context) (h : s.Gapped)
    (hkeeping : s.keeping? statement ending = none) :
    (s.conclude context statement ending).Gapped := by
  unfold keeping? at hkeeping
  unfold State.conclude
  cases hleaf : s.leaf? statement ending with
  | none => simp [hleaf] at hkeeping
  | some leaf =>
    have hadd := h.addLeaf (context.source statement.first.start) (before_leaf? hleaf)
    exact { hadd with }

theorem Gapped.cut (context : Context) (h : s.Gapped) (hrepair : s.cutRepair? ending = none) :
    (s.cut context ending).Gapped := by
  unfold cutRepair? at hrepair
  unfold State.cut
  cases hstatement : s.statement with
  | none => exact h
  | some statement =>
    rw [hstatement, Option.bind_some] at hrepair
    have hheld := h.held
    rw [heldTokens_some hstatement, ← Statement.tokens_splitSpace] at hheld
    refine (h.drop.conclude context hrepair).addText (isGap_of_blanks (blanks_keptText ?_))
    intro t ht
    have hspace := Statement.kind_of_mem_splitSpace ht
    exact ⟨hspace, hheld t (List.mem_append_right _ ht) hspace⟩

theorem Gapped.openBlock (h : s.Gapped) (source : Source) {head : Head}
    (hbefore : head.before = s.scope.pending) : (s.openBlock source head).Gapped where
  ended := h.ended
  children _ hmem := nomatch hmem
  pending := isGap_nil
  frames := List.forall_mem_cons.mpr ⟨⟨hbefore ▸ h.pending, h.children⟩, h.frames⟩
  held _ hmem := nomatch hmem

theorem Gapped.closeBlock (h : s.Gapped) : s.closeBlock.Gapped := by
  obtain ⟨scope, frames, statement, ended, log⟩ := s
  cases frames with
  | nil => exact h
  | cons frame frames =>
    obtain ⟨⟨hbefore, houter⟩, hframes⟩ := List.forall_mem_cons.mp h.frames
    have hblock : (Node.block frame.source frame.head scope.children.reverse scope.pending
        scope.semicolon).Gapped :=
      .block hbefore (fun n hn ↦ h.children n (List.mem_reverse.mp hn)) h.pending
    exact
      { h with
        children := List.forall_mem_cons.mpr ⟨hblock, houter⟩
        pending := isGap_nil
        frames := hframes }

/-- A token that calls for no repair leaves gaps between the nodes. -/
theorem Gapped.advance (context : Context) (h : s.Gapped) (ht : t.Shaped)
    (hspace : t.kind = .space → Blanks t.text.toList) (hrepair : s.repair? t = none) :
    (s.advance context t).Gapped := by
  have hopen : ¬s.ended = true := ne_true_of_eq_false h.ended
  unfold repair? at hrepair
  unfold State.advance
  rw [if_neg hopen] at hrepair ⊢
  cases hkind : t.kind with
  | string | word | atWord | colon | other => exact h.hold hspace
  | space =>
    dsimp only
    unfold readSpace
    cases hstatement : s.statement with
    | none => exact h.addText (isGap_of_blanks (hspace hkind))
    | some statement =>
      have hhold := h.hold hspace
      rwa [State.hold, hstatement] at hhold
  | comment =>
    dsimp only
    unfold addComment
    cases hstatement : s.statement with
    | none => exact h.addLeaf _ rfl
    | some statement => exact h.hold hspace
  | openCurly => exact h.openBlock _ (before_blockHead context s t)
  | semicolon =>
    rw [hkind] at hrepair
    cases hstatement : s.statement with
    | none =>
      refine h.addText ?_
      rw [ht.single ';' (by rw [hkind]; rfl), String.toList_ofList]
      exact List.forall_mem_singleton.mpr (.inr rfl)
    | some statement =>
      rw [hstatement] at hrepair
      exact h.drop.conclude context hrepair
  | closeCurly =>
    rw [hkind] at hrepair
    cases hframes : s.frames with
    | nil => simp [hframes] at hrepair
    | cons frame frames =>
      rw [hframes] at hrepair
      exact (h.cut context hrepair).closeBlock

theorem gapped_start : ({} : State).Gapped where
  ended := rfl
  children _ h := nomatch h
  pending := isGap_nil
  frames _ h := nomatch h
  held _ h := nomatch h

theorem Gapped.foldl_advance (context : Context) {ts : List Token} (h : s.Gapped)
    (hts : ∀ t ∈ ts, t.Shaped ∧ (t.kind = .space → Blanks t.text.toList))
    (hfatal : s.fatalIn? context ts = none) (hrepairs : s.repairsIn context ts = []) :
    (ts.foldl (State.advance context) s).Gapped := by
  induction ts generalizing s with
  | nil => exact h
  | cons t ts ih =>
    obtain ⟨⟨ht, hspace⟩, hts⟩ := List.forall_mem_cons.mp hts
    obtain ⟨hfirst, hlater⟩ := Option.or_eq_none_iff.mp hfatal
    rw [repairsIn, hfirst, if_neg (by simp)] at hrepairs
    obtain ⟨hnone, hrest⟩ := List.append_eq_nil_iff.mp hrepairs
    exact ih (h.advance context ht hspace (Option.toList_eq_nil_iff.mp hnone)) hts hlater hrest

theorem Gapped.tree (context : Context) (file : Option String) (h : s.Gapped)
    (hfinal : s.finalRefusal? = none) : ((s.conclusion context).tree file).Gapped := by
  obtain ⟨hframes, hrepair⟩ := (finalRefusal?_eq_none_iff_closed s h.ended).mp hfinal
  rw [conclusion_of_closed context s h.ended hframes]
  have hcut := h.cut context hrepair
  exact ⟨fun n hn ↦ hcut.children n (List.mem_reverse.mp hn), hcut.pending⟩

end Parse.State

open Parse

theorem gapped_of_parse {options : Options} {text : String} {tree : Tree}
    (hstrict : options.strict = true) (h : parse options text = .ok tree) : tree.Gapped := by
  obtain ⟨hfatal, hrepairs, hfinal, rfl⟩ := (parse_strict_eq_ok_iff options text hstrict tree).mp h
  have hspaces := blanks_of_chained (chained_tokenize text).1
  have hts : ∀ t ∈ tokenize text, t.Shaped ∧ (t.kind = .space → Blanks t.text.toList) :=
    fun t ht ↦ ⟨shaped_of_mem_tokenize text t ht, hspaces t ht⟩
  have hgapped := State.gapped_start.foldl_advance options.context hts hfatal hrepairs
  exact hgapped.tree options.context options.context.file hfinal

end Stylesheet
