import Stylesheet.Arena.Basic
import Stylesheet.Node.Size

/-!
# The arena of a tree

Nodes are numbered in the order of the text, each before its children. The first child therefore
has the number after its container's, and every sibling the number after all nodes inside the one
in front of it. There are as many entries as nodes (`size_ofTree`).
-/

namespace Stylesheet

namespace Node

/-- The numbers of siblings, the first of which is given. -/
def numbers (first : NodeId) : List Node → List NodeId
  | [] => []
  | n :: behind => first :: numbers (first + n.size) behind

mutual

def enter (entries : Array Entry) (parent : Container) : Node → Array Entry
  | leaf source l => entries.push ⟨parent, source, .leaf l⟩
  | block source head children after semicolon =>
    let id := entries.size
    let content := .block head (numbers (id + 1) children) after semicolon
    enterAll (entries.push ⟨parent, source, content⟩) (.node id) children

def enterAll (entries : Array Entry) (parent : Container) : List Node → Array Entry
  | [] => entries
  | n :: behind => enterAll (enter entries parent n) parent behind

end

end Node

namespace Node

theorem length_numbers (first : NodeId) (ns : List Node) :
    (numbers first ns).length = ns.length := by
  induction ns generalizing first with
  | nil => rfl
  | cons n behind ih =>
    rw [numbers, List.length_cons, ih, List.length_cons]

mutual

theorem size_enter (entries : Array Entry) (parent : Container) (n : Node) :
    (n.enter entries parent).size = entries.size + n.size := by
  cases n with
  | leaf source l =>
    rw [enter, Array.size_push, size]
  | block source head children after semicolon =>
    rw [enter, size_enterAll, Array.size_push, size]
    omega

theorem size_enterAll (entries : Array Entry) (parent : Container) (ns : List Node) :
    (enterAll entries parent ns).size = entries.size + sizeAll ns := by
  cases ns with
  | nil => rfl
  | cons n behind =>
    rw [enterAll, size_enterAll _ parent behind, size_enter _ parent n, sizeAll]
    omega

end

end Node

def Arena.ofTree (t : Tree) : Arena where
  entries := Node.enterAll #[] .root t.rules
  rules := Node.numbers 0 t.rules
  after := t.after
  semicolon := t.semicolon
  file := t.file

theorem Arena.size_ofTree (t : Tree) : (Arena.ofTree t).size = t.size := by
  have h := Node.size_enterAll #[] .root t.rules
  rw [Array.size_empty, Nat.zero_add] at h
  exact h

end Stylesheet
