import Stylesheet.Arena.Edit
import Stylesheet.Parse.State
import Stylesheet.Proofs.Arena.Append
import Stylesheet.Proofs.Arena.Stored

/-!
# Arenas that are being filled

While a text is read, every node has its entry as soon as it starts, and its container lists it. So
an open block is there already with the children that it has so far (`arenaOf`).

Adding to the innermost container is possible at any time (`alter?_arenaOf`), and what comes out is
the arena with one node more (`add?_arenaOf`).
-/

namespace Stylesheet

namespace Arena

/-- What a container says about its inside. -/
structure Filling where
  children : List NodeId := []
  after : String := ""
  semicolon : Bool := false

/-- Only blocks and the top can hold nodes. -/
def holds (a : Arena) : Container → Bool
  | .root => true
  | .node id =>
    match a.entry? id with
    | some ⟨_, _, .block ..⟩ => true
    | _ => false

/-- Changes the inside of a container. A leaf has none. -/
def alter? (a : Arena) (f : Filling → Filling) : Container → Option Arena
  | .root =>
    let inside := f ⟨a.rules, a.after, a.semicolon⟩
    some { a with
      rules := inside.children
      after := inside.after
      semicolon := inside.semicolon }
  | .node id =>
    a.updateContent? id fun
      | .leaf _ => none
      | .block head children after semicolon =>
        let inside := f ⟨children, after, semicolon⟩
        some (.block head inside.children inside.after inside.semicolon)

def push (a : Arena) (entry : Entry) : Arena :=
  { a with entries := a.entries.push entry }

/-- Adds a node at the end of its container. -/
def add? (a : Arena) (entry : Entry) : Option Arena :=
  (a.push entry).alter? (fun inside ↦ { inside with children := inside.children ++ [a.size] })
    entry.parent

end Arena

namespace Checked

open Arena Parse

/-- How many nodes there are by the time that the innermost container has the children. -/
def entered : List Frame → List Node → Nat
  | [], ns => Node.sizeAll ns
  | frame :: frames, ns => entered frames frame.outer.children.reverse + 1 + Node.sizeAll ns

/-- The innermost container. -/
def containerOf : List Frame → Container
  | [] => .root
  | frame :: frames => .node (entered frames frame.outer.children.reverse)

/-- The innermost container and those around it. -/
def containersOf : List Frame → List Container
  | [] => [.root]
  | frame :: frames => containerOf (frame :: frames) :: containersOf frames

/-- The numbers of the children of the innermost container. -/
def childrenOf (frames : List Frame) (ns : List Node) : List NodeId :=
  Node.numbers (entered frames []) ns

/-- The arena with the blocks that are open. The innermost container has the children and says
about its inside what is given. -/
def arenaOf (file : Option String) : List Frame → List Node → Filling → Arena
  | [], ns, inside =>
    ⟨Node.enterAll #[] .root ns, inside.children, inside.after, inside.semicolon, file⟩
  | frame :: frames, ns, inside =>
    let outer := frame.outer.children.reverse
    let id := entered frames outer
    let a := arenaOf file frames outer
      ⟨childrenOf frames outer ++ [id], "", frame.outer.semicolon⟩
    let content := .block frame.head inside.children inside.after inside.semicolon
    let entry := ⟨containerOf frames, frame.source, content⟩
    { a with entries := Node.enterAll (a.entries.push entry) (.node id) ns }

/-! ## Numbers -/

theorem entered_eq (frames : List Frame) (ns : List Node) :
    entered frames ns = entered frames [] + Node.sizeAll ns := by
  cases frames with
  | nil => rw [entered, entered, Node.sizeAll, Nat.zero_add]
  | cons frame frames => rw [entered, entered, Node.sizeAll, Nat.add_zero]

theorem childrenOf_concat (frames : List Frame) (ns : List Node) (n : Node) :
    childrenOf frames (ns ++ [n]) = childrenOf frames ns ++ [entered frames ns] := by
  rw [childrenOf, Node.numbers_append, ← entered_eq]
  rfl

theorem size_arenaOf (file : Option String) (frames : List Frame) (ns : List Node)
    (inside : Filling) : (arenaOf file frames ns inside).size = entered frames ns := by
  induction frames generalizing ns inside with
  | nil => simp [arenaOf, Arena.size, Node.size_enterAll, entered]
  | cons frame frames ih =>
    have houter := ih frame.outer.children.reverse
    simp only [Arena.size] at houter
    simp only [arenaOf, Arena.size, Node.size_enterAll, Array.size_push, entered, houter]

/-! ## Containers -/

theorem entry?_arenaOf (file : Option String) (frame : Frame) (frames : List Frame)
    (ns : List Node) (inside : Filling) :
    Arena.entry? (arenaOf file (frame :: frames) ns inside)
        (entered frames frame.outer.children.reverse) =
      some ⟨containerOf frames, frame.source,
        .block frame.head inside.children inside.after inside.semicolon⟩ := by
  let outer := frame.outer.children.reverse
  let a := arenaOf file frames outer
    ⟨childrenOf frames outer ++ [entered frames outer], "", frame.outer.semicolon⟩
  let entry : Entry := ⟨containerOf frames, frame.source,
    .block frame.head inside.children inside.after inside.semicolon⟩
  have hid : entered frames outer = a.entries.size := (size_arenaOf file frames outer _).symm
  have hlt : entered frames outer < (a.entries.push entry).size := by
    rw [Array.size_push, hid]
    exact Nat.lt_succ_self _
  change (Node.enterAll (a.entries.push entry) _ ns)[entered frames outer]? = _
  rw [Node.getElem?_enterAll _ _ ns hlt, hid, Array.getElem?_push_size]

/-- What can hold nodes can still hold them when others are entered behind. -/
theorem holds_enterAll {a : Arena} {container : Container} (h : a.holds container = true)
    (entry : Entry) (parent : Container) (ns : List Node) :
    Arena.holds { a with entries := Node.enterAll (a.entries.push entry) parent ns } container =
      true := by
  cases container with
  | root => rfl
  | node id =>
    have hlt : id < a.entries.size := by
      refine Nat.lt_of_not_le fun hge ↦ ?_
      have hnone : a.entry? id = none := Array.getElem?_eq_none hge
      rw [holds, hnone] at h
      contradiction
    have hpushed : id < (a.entries.push entry).size := by
      rw [Array.size_push]
      exact Nat.lt_succ_of_lt hlt
    have hsame : (Node.enterAll (a.entries.push entry) parent ns)[id]? = a.entries[id]? := by
      rw [Node.getElem?_enterAll _ _ ns hpushed, Array.getElem?_push_lt hlt,
        Array.getElem?_eq_getElem hlt]
    rw [holds, Arena.entry?] at h ⊢
    rwa [hsame]

theorem holds_arenaOf (file : Option String) (frames : List Frame) (ns : List Node)
    (inside : Filling) {container : Container} (h : container ∈ containersOf frames) :
    (arenaOf file frames ns inside).holds container = true := by
  induction frames generalizing ns inside with
  | nil =>
    obtain rfl := List.mem_singleton.mp h
    rfl
  | cons frame frames ih =>
    obtain rfl | hmem := List.mem_cons.mp h
    · rw [containerOf, holds, entry?_arenaOf]
    · exact holds_enterAll (ih _ _ hmem) _ _ ns

/-! ## Changes -/

theorem setIfInBounds_push {entries : Array Entry} {i : Nat} (h : i < entries.size)
    (entry last : Entry) :
    (entries.push last).setIfInBounds i entry = (entries.setIfInBounds i entry).push last := by
  rw [← Array.toList_inj, Array.toList_setIfInBounds, Array.toList_push, Array.toList_push,
    Array.toList_setIfInBounds, List.set_append_left _ _ h]

theorem setIfInBounds_push_size (entries : Array Entry) (entry last : Entry) :
    (entries.push last).setIfInBounds entries.size entry = entries.push entry := by
  rw [← Array.toList_inj, Array.toList_setIfInBounds, Array.toList_push, Array.toList_push,
    ← Array.length_toList, List.set_append_right _ _ (Nat.le_refl _), Nat.sub_self,
    List.set_cons_zero]

mutual

/-- What is entered later leaves the entries in front alone. -/
theorem setIfInBounds_enter {entries : Array Entry} {i : Nat} (h : i < entries.size)
    (entry : Entry) (parent : Container) (n : Node) :
    (n.enter entries parent).setIfInBounds i entry =
      n.enter (entries.setIfInBounds i entry) parent := by
  cases n with
  | leaf source l =>
    rw [Node.enter, Node.enter, setIfInBounds_push h]
  | block source head children after semicolon =>
    rw [Node.enter, Node.enter, Array.size_setIfInBounds, ← setIfInBounds_push h]
    exact setIfInBounds_enterAll (by rw [Array.size_push]; omega) entry _ children

theorem setIfInBounds_enterAll {entries : Array Entry} {i : Nat} (h : i < entries.size)
    (entry : Entry) (parent : Container) (ns : List Node) :
    (Node.enterAll entries parent ns).setIfInBounds i entry =
      Node.enterAll (entries.setIfInBounds i entry) parent ns := by
  cases ns with
  | nil => rfl
  | cons n ns =>
    have hentered : i < (n.enter entries parent).size := by
      rw [Node.size_enter]
      omega
    rw [Node.enterAll, Node.enterAll, setIfInBounds_enterAll hentered entry parent ns,
      setIfInBounds_enter h entry parent n]

end

/-- The innermost container is a block, or it is the top. -/
theorem alter?_arenaOf (file : Option String) (frames : List Frame) (ns : List Node)
    (inside : Filling) (f : Filling → Filling) :
    (arenaOf file frames ns inside).alter? f (containerOf frames) =
      some (arenaOf file frames ns (f inside)) := by
  cases frames with
  | nil => rfl
  | cons frame frames =>
    let outer := frame.outer.children.reverse
    let a := arenaOf file frames outer
      ⟨childrenOf frames outer ++ [entered frames outer], "", frame.outer.semicolon⟩
    let entry (inside : Filling) : Entry := ⟨containerOf frames, frame.source,
      .block frame.head inside.children inside.after inside.semicolon⟩
    have hid : entered frames outer = a.entries.size := (size_arenaOf file frames outer _).symm
    have hlt : entered frames outer < (a.entries.push (entry inside)).size := by
      rw [Array.size_push, hid]
      exact Nat.lt_succ_self _
    have hset : (Node.enterAll (a.entries.push (entry inside)) (.node (entered frames outer))
        ns).setIfInBounds (entered frames outer) (entry (f inside)) =
          Node.enterAll (a.entries.push (entry (f inside))) (.node (entered frames outer)) ns := by
      rw [setIfInBounds_enterAll hlt, hid, setIfInBounds_push_size]
    rw [containerOf, alter?, updateContent?, update?, entry?_arenaOf]
    exact congrArg (fun entries ↦ some { a with entries }) hset

theorem updateContent?_push {a b : Arena} {g : Content → Option Content} {id : NodeId}
    (entry : Entry) (h : a.updateContent? id g = some b) :
    (a.push entry).updateContent? id g = some (b.push entry) := by
  simp only [updateContent?, update?, Option.bind_eq_bind, Option.bind_eq_some_iff] at h
  obtain ⟨old, hold, new, hnew, h⟩ := h
  have hlt : id < a.entries.size := (Array.getElem?_eq_some_iff.mp hold).1
  have hpushed : Arena.entry? (a.push entry) id = some old := by
    rw [Arena.entry?, push, Array.getElem?_push_lt hlt, ← Array.getElem?_eq_getElem hlt]
    exact hold
  obtain rfl := Option.some.inj h
  simp only [updateContent?, update?, Option.bind_eq_bind, hpushed, Option.bind_some, hnew]
  exact congrArg (fun entries ↦ some { a with entries }) (setIfInBounds_push hlt new entry)

/-- A change does not reach what is added behind. -/
theorem alter?_push {a b : Arena} {f : Filling → Filling} {container : Container} (entry : Entry)
    (h : a.alter? f container = some b) :
    (a.push entry).alter? f container = some (b.push entry) := by
  cases container with
  | root =>
    obtain rfl := Option.some.inj h
    rfl
  | node id =>
    rw [alter?] at h ⊢
    exact updateContent?_push entry h

/-- One more child of the innermost container is entered behind all that is there. -/
theorem arenaOf_concat (file : Option String) (frames : List Frame) (ns : List Node) (n : Node)
    (inside : Filling) :
    arenaOf file frames (ns ++ [n]) inside =
      { arenaOf file frames ns inside with
        entries := n.enter (arenaOf file frames ns inside).entries (containerOf frames) } := by
  cases frames with
  | nil =>
    simp only [arenaOf, Node.enterAll_append]
    rfl
  | cons frame frames =>
    simp only [arenaOf, Node.enterAll_append]
    rfl

/-- What is added is listed by the innermost container. -/
theorem add?_arenaOf (file : Option String) (frames : List Frame) (ns : List Node)
    (inside : Filling) (source : Source) (content : Content) :
    (arenaOf file frames ns inside).add? ⟨containerOf frames, source, content⟩ =
      some ((arenaOf file frames ns
        { inside with children := inside.children ++ [entered frames ns] }).push
          ⟨containerOf frames, source, content⟩) := by
  rw [add?, size_arenaOf]
  exact alter?_push _ (alter?_arenaOf file frames ns inside _)

theorem push_leaf (file : Option String) (frames : List Frame) (ns : List Node) (inside : Filling)
    (source : Source) (leaf : Leaf) :
    (arenaOf file frames ns inside).push ⟨containerOf frames, source, .leaf leaf⟩ =
      arenaOf file frames (ns ++ [.leaf source leaf]) inside := by
  rw [arenaOf_concat]
  rfl

/-- Once the block is closed it is a child of the container around it. -/
theorem arenaOf_closed (file : Option String) (frame : Frame) (frames : List Frame)
    (ns : List Node) (after : String) (semicolon : Bool) :
    let outer := frame.outer.children.reverse
    let block := .block frame.source frame.head ns after semicolon
    arenaOf file (frame :: frames) ns ⟨childrenOf (frame :: frames) ns, after, semicolon⟩ =
      arenaOf file frames (outer ++ [block])
        ⟨childrenOf frames (outer ++ [block]), "", frame.outer.semicolon⟩ := by
  intro outer block
  rw [arenaOf_concat, childrenOf_concat, Node.enter]
  have hsize := size_arenaOf file frames outer
    ⟨childrenOf frames outer ++ [entered frames outer], "", frame.outer.semicolon⟩
  change (arenaOf file frames outer _).entries.size = _ at hsize
  rw [hsize]
  rfl

end Checked

end Stylesheet
