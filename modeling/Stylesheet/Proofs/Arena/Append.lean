import Stylesheet.Arena.OfTree
import Stylesheet.Proofs.Position

/-!
# Trees one behind the other

Behind another stylesheet the nodes of a stylesheet are found further on in the text
(`Node.continued`), and in an arena they have higher numbers (`Entry.continued`). The arena of both
is made of the arenas of each (`Arena.ofTree_append`).
-/

namespace Stylesheet

/-! ## Places further on -/

/-- The place as it is if the text that it is counted in starts at `start`. -/
def Source.continued (start : Position) (s : Source) : Source :=
  ⟨s.file, (start.continued ⟨s.line, s.column⟩).line, (start.continued ⟨s.line, s.column⟩).column⟩

namespace Node

mutual

def continued (start : Position) : Node → Node
  | leaf source l => leaf (source.continued start) l
  | block source head children after semicolon =>
    block (source.continued start) head (continuedAll start children) after semicolon

def continuedAll (start : Position) : List Node → List Node
  | [] => []
  | n :: ns => continued start n :: continuedAll start ns

end

theorem continuedAll_eq (start : Position) (ns : List Node) :
    continuedAll start ns = ns.map (continued start) := by
  induction ns with
  | nil => rw [continuedAll, List.map_nil]
  | cons n ns ih => rw [continuedAll, ih, List.map_cons]

end Node

variable (k : Nat) (start : Position)

namespace Node

mutual

@[simp]
theorem size_continued (n : Node) : (n.continued start).size = n.size := by
  cases n with
  | leaf source l => rw [continued, size, size]
  | block source head children after semicolon =>
    rw [continued, size, size, sizeAll_continued children]

@[simp]
theorem sizeAll_continued (ns : List Node) : sizeAll (continuedAll start ns) = sizeAll ns := by
  cases ns with
  | nil => rw [continuedAll]
  | cons n ns =>
    rw [continuedAll, sizeAll, sizeAll, size_continued n, sizeAll_continued ns]

end

theorem numbers_append (first : NodeId) (ns ms : List Node) :
    numbers first (ns ++ ms) = numbers first ns ++ numbers (first + sizeAll ns) ms := by
  induction ns generalizing first with
  | nil => rw [sizeAll]; rfl
  | cons n ns ih => rw [List.cons_append, numbers, ih, numbers, sizeAll, Nat.add_assoc]; rfl

theorem numbers_continued (first : NodeId) (ns : List Node) :
    numbers (k + first) (continuedAll start ns) = (numbers first ns).map (k + ·) := by
  induction ns generalizing first with
  | nil => rw [continuedAll]; rfl
  | cons n ns ih =>
    rw [continuedAll, numbers, size_continued, Nat.add_assoc, ih, numbers, List.map_cons]

end Node

/-! ## Entries -/

/-- The container as it is called behind `k` other nodes. -/
def Container.continued : Container → Container
  | root => root
  | node id => node (k + id)

def Content.continued : Content → Content
  | leaf l => leaf l
  | block head children after semicolon => block head (children.map (k + ·)) after semicolon

/-- The entry as it is behind `k` other nodes, in a text that starts at `start`. -/
def Entry.continued (entry : Entry) : Entry where
  parent := entry.parent.continued k
  source := entry.source.continued start
  content := entry.content.continued k

namespace Node

mutual

theorem enter_continued (front : Array Entry) (entries : Array Entry) (parent : Container)
    (n : Node) :
    (n.continued start).enter (front ++ entries.map (Entry.continued front.size start))
        (parent.continued front.size) =
      front ++ (n.enter entries parent).map (Entry.continued front.size start) := by
  cases n with
  | leaf source l =>
    rw [continued, enter, enter, Array.map_push, Array.append_push]
    rfl
  | block source head children after semicolon =>
    let entry : Entry :=
      ⟨parent, source, .block head (numbers (entries.size + 1) children) after semicolon⟩
    have hid : (front ++ entries.map (Entry.continued front.size start)).size =
        front.size + entries.size := by simp
    have hentry : (⟨parent.continued front.size, source.continued start,
        .block head (numbers (front.size + entries.size + 1) (continuedAll start children)) after
          semicolon⟩ : Entry) = entry.continued front.size start := by
      rw [Nat.add_assoc, numbers_continued]
      rfl
    have hchildren := enterAll_continued front (entries.push entry) (.node entries.size) children
    rw [Array.map_push, Array.append_push] at hchildren
    rw [continued, enter, enter, hid, hentry]
    exact hchildren

theorem enterAll_continued (front : Array Entry) (entries : Array Entry) (parent : Container)
    (ns : List Node) :
    enterAll (front ++ entries.map (Entry.continued front.size start))
        (parent.continued front.size) (continuedAll start ns) =
      front ++ (enterAll entries parent ns).map (Entry.continued front.size start) := by
  cases ns with
  | nil => rw [continuedAll, enterAll, enterAll]
  | cons n ns =>
    rw [continuedAll, enterAll, enterAll, enter_continued front entries parent n,
      enterAll_continued front (n.enter entries parent) parent ns]

end

theorem enterAll_append (entries : Array Entry) (parent : Container) (ns ms : List Node) :
    enterAll entries parent (ns ++ ms) = enterAll (enterAll entries parent ns) parent ms := by
  induction ns generalizing entries with
  | nil => rw [enterAll]; rfl
  | cons n ns ih => rw [List.cons_append, enterAll, ih, enterAll]

end Node

/-! ## Arenas -/

/-- The nodes of the second arena stand behind those of the first, which end at the position. What
comes behind the last node is the second one's. -/
def Arena.append (a b : Arena) (start : Position) : Arena where
  entries := a.entries ++ b.entries.map (Entry.continued a.size start)
  rules := a.rules ++ b.rules.map (a.size + ·)
  after := b.after
  semicolon := b.semicolon
  file := b.file

def Tree.append (s t : Tree) (start : Position) : Tree :=
  { t with rules := s.rules ++ Node.continuedAll start t.rules }

theorem Arena.ofTree_append (s t : Tree) :
    Arena.ofTree (s.append t start) = (Arena.ofTree s).append (Arena.ofTree t) start := by
  have hsize : (Node.enterAll #[] .root s.rules).size = Node.sizeAll s.rules := by
    rw [Node.size_enterAll, Array.size_empty, Nat.zero_add]
  have hentries := Node.enterAll_continued start (Node.enterAll #[] .root s.rules) #[] .root t.rules
  have hnumbers := Node.numbers_continued (Node.sizeAll s.rules) start 0 t.rules
  rw [Array.map_empty, Array.append_empty] at hentries
  rw [Nat.add_zero] at hnumbers
  simp only [ofTree, append, Tree.append, Arena.size, Node.enterAll_append, Node.numbers_append,
    hsize, Nat.zero_add, hnumbers]
  rw [hsize] at hentries
  exact congrArg (Arena.mk · _ _ _ _) hentries

end Stylesheet
