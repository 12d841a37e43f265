import Stylesheet.Node.Printer

/-!
# Arenas

An arena holds nodes by number. Containers list the numbers of their children, so that a node can
be changed, moved or listed again without touching the others. Lookups say nothing for a number
that the arena does not have.

`tree?` expands an arena from its top. There is no tree if a list leads to an unknown number or
back to the container it belongs to; otherwise no path is longer than the number of nodes.
-/

namespace Stylesheet

abbrev NodeId := Nat

inductive Container where
  | root
  | node (id : NodeId)
  deriving DecidableEq, Repr

inductive Content where
  | leaf (leaf : Leaf)
  | block (head : Head) (children : List NodeId) (after : String) (semicolon : Bool)
  deriving DecidableEq, Repr

namespace Content

def kind : Content → NodeKind
  | leaf l => l.kind
  | block head .. => head.kind

def before : Content → String
  | leaf l => l.before
  | block head .. => head.before

def children : Content → List NodeId
  | leaf _ => []
  | block _ children .. => children

def isComment : Content → Bool
  | leaf l => l.isComment
  | block .. => false

def isStatement : Content → Bool
  | leaf l => l.isStatement
  | block .. => false

end Content

structure Entry where
  /-- The container that the node was read in. -/
  parent : Container
  source : Source
  content : Content
  deriving DecidableEq, Repr

structure Arena where
  entries : Array Entry
  rules : List NodeId
  after : String
  semicolon : Bool
  file : Option String
  deriving DecidableEq, Repr

namespace Arena

def size (a : Arena) : Nat :=
  a.entries.size

/-- Nodes are numbered in the order of the text. -/
def descendants (a : Arena) : List NodeId :=
  List.range a.size

def entry? (a : Arena) (id : NodeId) : Option Entry :=
  a.entries[id]?

def parent? (a : Arena) (id : NodeId) : Option Container :=
  (a.entry? id).map Entry.parent

def children? (a : Arena) : Container → Option (List NodeId)
  | .root => some a.rules
  | .node id => (a.entry? id).map fun entry ↦ entry.content.children

/-- Of a container without children there is no first child, which is an answer too. -/
def firstChild? (a : Arena) (container : Container) : Option (Option NodeId) :=
  (a.children? container).map List.head?

def lastChild? (a : Arena) (container : Container) : Option (Option NodeId) :=
  (a.children? container).map List.getLast?

def expand? (a : Arena) : (depth : Nat) → NodeId → Option Node
  | 0, _ => none
  | depth + 1, id => do
    let entry ← a.entry? id
    match entry.content with
    | .leaf l => return .leaf entry.source l
    | .block head children after semicolon =>
      let children ← children.mapM (a.expand? depth)
      return .block entry.source head children after semicolon

def node? (a : Arena) (id : NodeId) : Option Node :=
  a.expand? a.size id

def tree? (a : Arena) : Option Tree := do
  let rules ← a.rules.mapM a.node?
  return { rules, after := a.after, semicolon := a.semicolon, file := a.file }

def nodeText? (a : Arena) (id : NodeId) : Option String :=
  (a.node? id).map Node.text

def text? (a : Arena) : Option String :=
  a.tree?.map Tree.text

end Arena

end Stylesheet
