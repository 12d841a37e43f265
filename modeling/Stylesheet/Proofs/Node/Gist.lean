import Stylesheet.Node.Basic

/-!
# Gists

The gist of a node is what it says, whatever place it was read at and however it was spaced: its
kind, its name and parameters, selector, property, value and flag, or the text of its comment, and
the gists of the nodes inside of it. All texts between these are left out, and so is the semicolon
that a container has behind its last statement.
-/

namespace Stylesheet

def Declaration.gist (d : Declaration) : Declaration :=
  { d with before := "", between := "", after := "" }

def Comment.gist (c : Comment) : Comment :=
  { c with before := "", left := "", right := "" }

def Prelude.gist (p : Prelude) : Prelude :=
  { p with before := "", afterName := "", between := "" }

def Selector.gist (s : Selector) : Selector :=
  { s with before := "", between := "" }

def Leaf.gist : Leaf → Leaf
  | declaration d => declaration d.gist
  | comment c => comment c.gist
  | statement p => statement p.gist

def Head.gist : Head → Head
  | rule s => rule s.gist
  | atRule p body => atRule p.gist body

@[simp]
theorem Head.body_gist (head : Head) : head.gist.body = head.body := by
  cases head <;> rfl

namespace Node

mutual

def gist : Node → Node
  | leaf _ l => leaf ⟨none, 0, 0⟩ l.gist
  | block _ head children _ _ => block ⟨none, 0, 0⟩ head.gist (gistAll children) "" false

def gistAll : List Node → List Node
  | [] => []
  | n :: behind => gist n :: gistAll behind

end

theorem gistAll_eq_map (ns : List Node) : gistAll ns = ns.map gist := by
  induction ns with
  | nil => rfl
  | cons n behind ih => rw [gistAll, ih, List.map_cons]

@[simp]
theorem gist_leaf (source : Source) (l : Leaf) :
    (leaf source l).gist = leaf ⟨none, 0, 0⟩ l.gist := by
  rw [gist]

@[simp]
theorem gist_block (source : Source) (head : Head) (children : List Node) (after : String)
    (semicolon : Bool) :
    (block source head children after semicolon).gist =
      block ⟨none, 0, 0⟩ head.gist (children.map gist) "" false := by
  rw [gist, gistAll_eq_map]

end Node

end Stylesheet
