import Mathlib.Data.List.Chain
import Stylesheet.Proofs.Arena.Append
import Stylesheet.Proofs.Arena.Shapes

/-!
# Blocks that the end of the text closes

The blocks that are open at the end of the text are inside of one another, and each is the last node
of the one around it, with no text behind (`Node.Spine`). In the arena they are an innermost block
and its ancestors up to the top, and they are reported in this order (`closes_of_parse`).
-/

namespace Stylesheet

/-- Where a block starts that the end of the text closes. -/
def Event.closing? : Event → Option Position
  | closingBlock position => some position
  | _ => none

/-! ## Blocks at the end -/

/-- From the outside in the sources are those of blocks, each of which ends what it is in. -/
inductive Node.Spine : (children : List Node) → (after : String) → List Source → Prop
  | nil (children : List Node) (after : String) : Spine children after []
  | cons {source : Source} {head : Head} {inside : List Node} {after : String}
      {sources : List Source} (siblings : List Node) (semicolon : Bool)
      (h : Spine inside after sources) :
      Spine (siblings ++ [.block source head inside after semicolon]) "" (source :: sources)

namespace Parse.State

theorem conclusion_of_open (context : Context) {s : State} (hopen : s.ended = false) :
    s.conclusion context = (s.cut context .endOfText).closeAll := by
  rw [conclusion, hopen, if_neg Bool.false_ne_true]

/-- The blocks that are closed come to stand around what is at the end already. -/
theorem spine_closeAll {s : State} {frames : List Frame} (hframes : s.frames = frames)
    {sources : List Source}
    (h : Node.Spine s.scope.children.reverse s.scope.pending sources) :
    Node.Spine s.closeAll.scope.children.reverse s.closeAll.scope.pending
      ((frames.map Frame.source).reverse ++ sources) := by
  induction frames generalizing s sources with
  | nil =>
    rw [closeAll_of_nil hframes]
    exact h
  | cons frame frames ih =>
    have hrest : s.closeBlock.frames = frames := by rw [frames_closeBlock, hframes, List.tail_cons]
    have hclosed : Node.Spine s.closeBlock.scope.children.reverse s.closeBlock.scope.pending
        (frame.source :: sources) := by
      unfold closeBlock
      rw [hframes]
      dsimp only [Scope.add]
      rw [List.reverse_cons]
      exact .cons frame.outer.children.reverse s.scope.semicolon h
    have hall := ih hrest hclosed
    rw [closeAll_of_cons hframes, List.map_cons, List.reverse_cons, List.append_assoc]
    exact hall

theorem spine_conclusion (context : Context) {s : State} (hopen : s.ended = false) :
    Node.Spine (s.conclusion context).scope.children.reverse (s.conclusion context).scope.pending
      (s.frames.map Frame.source).reverse := by
  have hspine := spine_closeAll (frames_cut context s .endOfText) (.nil _ _)
  rwa [List.append_nil, ← conclusion_of_open context hopen] at hspine

end Parse.State

/-! ## In the arena -/

namespace Arena

def after? (a : Arena) : Container → Option String
  | .root => some a.after
  | .node id => (a.entry? id).bind fun entry ↦ entry.content.after?

/-- The first container is a node that ends the other one: it is its last child, and there is no
text behind. -/
def LastIn (a : Arena) (inner outer : Container) : Prop :=
  ∃ id, inner = .node id ∧ a.parent? id = some outer ∧ a.lastChild? outer = some (some id) ∧
    a.after? outer = some ""

/-- The nodes are recorded at the positions. The first of them is a block, and each of the others is
the container of the one in front of it, which ends it. The last is at the end of the top. -/
structure Closes (a : Arena) (positions : List Position) (ids : List NodeId) : Prop where
  recorded : ids.map (fun id ↦ (a.entry? id).map fun entry ↦ entry.source.position) =
    positions.map some
  block : ∀ id ∈ ids, a.after? (.node id) ≠ none
  ancestors : List.IsChain a.LastIn (ids.map Container.node ++ [Container.root])
  decreasing : positions.Pairwise fun p q ↦ compare q p = .lt

theorem StoresAll.exists_chain {a : Arena} {container : Container} {first : NodeId}
    {ns : List Node} {after : String} {sources : List Source}
    (h : a.StoresAll container first ns) (hspine : Node.Spine ns after sources)
    (hchildren : a.children? container = some (Node.numbers first ns))
    (hafter : a.after? container = some after) :
    ∃ ids : List NodeId, ids.map (fun id ↦ (a.entry? id).map Entry.source) = sources.map some ∧
      (∀ id ∈ ids, first ≤ id ∧ a.after? (.node id) ≠ none) ∧ ids.Pairwise (· < ·) ∧
      List.IsChain (fun outer inner ↦ a.LastIn inner outer)
        (container :: ids.map Container.node) := by
  induction hspine generalizing container first with
  | nil => exact ⟨[], rfl, fun _ hid ↦ absurd hid List.not_mem_nil, .nil, .singleton _⟩
  | @cons source head inside after sources siblings semicolon _ ih =>
    rw [storesAll_append_iff, StoresAll] at h
    have hblock := h.2.1
    have hlast : a.lastChild? container = some (some (first + Node.sizeAll siblings)) := by
      rw [lastChild?, hchildren, Node.numbers_append]
      simp [Node.numbers]
    have hkids := hblock.children?
    have hends : a.LastIn (.node (first + Node.sizeAll siblings)) container :=
      ⟨_, rfl, hblock.parent?, hlast, hafter⟩
    rw [Stores] at hblock
    have hinside : a.after? (.node (first + Node.sizeAll siblings)) = some after := by
      rw [after?, hblock.1]
      rfl
    obtain ⟨ids, hids, hbounds, hordered, hchain⟩ := ih hblock.2 hkids hinside
    refine ⟨(first + Node.sizeAll siblings) :: ids, ?_, ?_, ?_, ?_⟩
    · rw [List.map_cons, hids, hblock.1]
      rfl
    · refine List.forall_mem_cons.mpr ⟨⟨Nat.le_add_right _ _, ?_⟩, fun id hid ↦ ?_⟩
      · rw [hinside]
        exact Option.some_ne_none after
      · obtain ⟨hle, hid⟩ := hbounds id hid
        exact ⟨Nat.le_trans (Nat.le_add_right _ _) (Nat.le_of_succ_le hle), hid⟩
    · exact List.pairwise_cons.mpr ⟨fun id hid ↦ (hbounds id hid).1, hordered⟩
    · exact List.isChain_cons_cons.mpr ⟨hends, hchain⟩

end Arena

/-! ## Parsed texts -/

open Parse

theorem Event.closing?_of_not_isClosing {e : Event} (h : e.isClosing = false) :
    e.closing? = none := by
  cases e <;> first | rfl | contradiction

/-- The blocks that are open at the end of the text are reported from the inside out. -/
theorem closings_read (options : Options) (text : String) (hlenient : options.strict = false)
    (hfatal : State.fatalIn? options.context {} (tokenize text) = none)
    (hopen : (reached options.context (tokenize text)).ended = false) :
    (read options text).events.filterMap Event.closing? =
      (reached options.context (tokenize text)).frames.map Frame.position := by
  have hrepairs : (State.repairsIn options.context {} (tokenize text)).filterMap
      Event.closing? = [] := by
    rw [List.filterMap_eq_nil_iff]
    exact fun e he ↦ Event.closing?_of_not_isClosing (State.not_isClosing_of_mem_repairsIn he)
  have hcut : ((reached options.context (tokenize text)).cutRepair? .endOfText).toList.filterMap
      Event.closing? = [] := by
    rw [List.filterMap_eq_nil_iff]
    intro e he
    obtain ⟨position, text, rfl⟩ :=
      State.exists_of_mem_cutRepair? _ .endOfText (Option.mem_toList.mp he)
    rfl
  rw [read_lenient options text hlenient, hfatal]
  simp [start, State.finalRepairs, hopen, hrepairs, hcut, Event.closing?, List.filterMap_append,
    List.filterMap_cons, List.filterMap_map, Function.comp_def]

open Arena

/-- The blocks that the end of the text closes are reported in the order of a node and its
ancestors, each of which ends with the one before. -/
theorem closes_of_parse (options : Options) (text : String) (tree : Tree)
    (h : parse options text = .ok tree) (hlenient : options.strict = false)
    (hstop : (read options text).events.any Event.isStop = false) :
    ∃ ids, (Arena.ofTree tree).Closes
      ((read options text).events.filterMap Event.closing?) ids := by
  obtain ⟨hfatal, htree⟩ := treeOf_of_parse h
  have hopen := (any_isStop_read options text hlenient hfatal).symm.trans hstop
  have hspine := State.spine_conclusion options.context hopen
  rw [closings_read options text hlenient hfatal hopen]
  have hrules : Node.Spine tree.rules tree.after
      ((reached options.context (tokenize text)).frames.map Frame.source).reverse := by
    rw [← htree]
    exact hspine
  obtain ⟨ids, hids, hbounds, hordered, hchain⟩ :=
    (stores_ofTree tree).exists_chain hrules rfl rfl
  -- The nodes are found from the outside in.
  have hrecorded : ids.reverse.map (fun id ↦ (Arena.entry? (Arena.ofTree tree) id).map
      fun entry ↦ entry.source.position) =
        ((reached options.context (tokenize text)).frames.map Frame.position).map some := by
    have hsame := congrArg (fun sources ↦ (sources.map (Option.map Source.position)).reverse) hids
    simpa [List.map_reverse, Function.comp_def, Source.position, Frame.position] using hsame
  refine ⟨ids.reverse, hrecorded, ?_, ?_, ?_⟩
  · exact fun id hid ↦ (hbounds id (List.mem_reverse.mp hid)).2
  · rw [← List.isChain_reverse]
    simpa using hchain
  · have hpositions : (((reached options.context (tokenize text)).frames.map
        Frame.position).map some).Pairwise fun p q ↦ ∀ i ∈ p, ∀ j ∈ q, compare j i = .lt := by
      rw [← hrecorded]
      refine List.pairwise_map.mpr ((List.pairwise_reverse.mpr hordered).imp ?_)
      intro id id' hlt i hi j hj
      obtain ⟨entry, hentry, rfl⟩ := Option.map_eq_some_iff.mp hi
      obtain ⟨entry', hentry', rfl⟩ := Option.map_eq_some_iff.mp hj
      exact position_lt_of_parse h hlt hentry' hentry
    exact (List.pairwise_map.mp hpositions).imp fun hlt ↦ hlt _ rfl _ rfl

theorem closes_of_parse_nested :
    ∃ tree, parse {} "a\x7b\x7d@media p\x7b\n/*x*/b\x7bc:d;" = .ok tree ∧
      (read {} "a\x7b\x7d@media p\x7b\n/*x*/b\x7bc:d;").events.filterMap Event.closing? =
        [⟨2, 6⟩, ⟨1, 4⟩] ∧
      ∃ ids, (Arena.ofTree tree).Closes [⟨2, 6⟩, ⟨1, 4⟩] ids := by
  let text := "a\x7b\x7d@media p\x7b\n/*x*/b\x7bc:d;"
  have hsize : ((parse {} text).toOption.map Tree.size) = some 5 := by decide +kernel
  obtain ⟨tree, htree, -⟩ := exists_of_toOption hsize
  have hclosings : (read {} text).events.filterMap Event.closing? = [⟨2, 6⟩, ⟨1, 4⟩] := by
    decide +kernel
  obtain ⟨ids, hids⟩ := closes_of_parse {} text tree htree rfl (by decide +kernel)
  rw [hclosings] at hids
  exact ⟨tree, htree, hclosings, ids, hids⟩

end Stylesheet
