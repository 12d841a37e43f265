import Stylesheet.Node.Basic

/-!
# The number of nodes
-/

namespace Stylesheet

namespace Node

mutual

def size : Node → Nat
  | leaf .. => 1
  | block _ _ children _ _ => sizeAll children + 1

def sizeAll : List Node → Nat
  | [] => 0
  | n :: ns => size n + sizeAll ns

end

end Node

/-- The tree itself does not count as a node. -/
def Tree.size (t : Tree) : Nat :=
  Node.sizeAll t.rules

end Stylesheet
