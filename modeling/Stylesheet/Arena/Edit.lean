import Stylesheet.Arena.Basic

/-!
# Editing

An edit applies to one node or to the top of the arena and changes what is asked for and nothing
else. It does not apply if the number is unknown, or if what it names has no such field.
-/

namespace Stylesheet

inductive TextField where
  | before
  | name
  | afterName
  | params
  | between
  | selector
  | after
  | prop
  | value
  | left
  | text
  | right
  deriving DecidableEq, Repr

inductive FlagField where
  | semicolon
  | important
  deriving DecidableEq, Repr

inductive PlaceField where
  | line
  | column
  deriving DecidableEq, Repr

namespace Declaration

def setText? (d : Declaration) (value : String) : TextField → Option Declaration
  | .before => some { d with before := value }
  | .prop => some { d with prop := value }
  | .between => some { d with between := value }
  | .value => some { d with value }
  | .after => some { d with after := value }
  | _ => none

end Declaration

namespace Comment

def setText? (c : Comment) (value : String) : TextField → Option Comment
  | .before => some { c with before := value }
  | .left => some { c with left := value }
  | .text => some { c with text := value }
  | .right => some { c with right := value }
  | _ => none

end Comment

namespace Prelude

def setText? (p : Prelude) (value : String) : TextField → Option Prelude
  | .before => some { p with before := value }
  | .name => some { p with name := value }
  | .afterName => some { p with afterName := value }
  | .params => some { p with params := value }
  | .between => some { p with between := value }
  | _ => none

end Prelude

namespace Selector

def setText? (s : Selector) (value : String) : TextField → Option Selector
  | .before => some { s with before := value }
  | .selector => some { s with selector := value }
  | .between => some { s with between := value }
  | _ => none

end Selector

def Leaf.setText? (field : TextField) (value : String) : Leaf → Option Leaf
  | declaration d => (d.setText? value field).map declaration
  | comment c => (c.setText? value field).map comment
  | statement p => (p.setText? value field).map statement

def Head.setText? (field : TextField) (value : String) : Head → Option Head
  | rule s => (s.setText? value field).map rule
  | atRule p body => (p.setText? value field).map (atRule · body)

namespace Content

def setText? (field : TextField) (value : String) : Content → Option Content
  | leaf l => (l.setText? field value).map leaf
  | block head children after semicolon =>
    if field = .after then some (block head children value semicolon)
    else (head.setText? field value).map (block · children after semicolon)

def setFlag? (field : FlagField) (value : Bool) : Content → Option Content
  | leaf (.declaration d) =>
    if field = .important then some (leaf (.declaration { d with important := value })) else none
  | leaf _ => none
  | block head children after _ =>
    if field = .semicolon then some (block head children after value) else none

def setChildren? (ids : List NodeId) : Content → Option Content
  | leaf _ => none
  | block head _ after semicolon => some (block head ids after semicolon)

/-- Only at-rules can do with and without a block. A block that is put in starts afresh. -/
def setBody? (body : Option (BodyKind × List NodeId)) (content : Content) : Option Content := do
  let p ←
    match content with
    | leaf (.statement p) => some p
    | block (.atRule p _) .. => some p
    | _ => none
  match body with
  | none => return leaf (.statement p)
  | some (kind, ids) => return block (.atRule p kind) ids "" false

end Content

def Source.setPlace (field : PlaceField) (value : Nat) (source : Source) : Source :=
  match field with
  | .line => { source with line := value }
  | .column => { source with column := value }

namespace Arena

def has (a : Arena) (id : NodeId) : Bool :=
  id < a.size

def update? (a : Arena) (id : NodeId) (f : Entry → Option Entry) : Option Arena := do
  let entry ← a.entry? id
  let entry ← f entry
  return { a with entries := a.entries.setIfInBounds id entry }

def updateContent? (a : Arena) (id : NodeId) (f : Content → Option Content) : Option Arena :=
  a.update? id fun entry ↦ (f entry.content).map fun content ↦ { entry with content }

def setText? (a : Arena) (field : TextField) (value : String) : Container → Option Arena
  | .root => if field = .after then some { a with after := value } else none
  | .node id => a.updateContent? id (Content.setText? field value)

def setFlag? (a : Arena) (field : FlagField) (value : Bool) : Container → Option Arena
  | .root => if field = .semicolon then some { a with semicolon := value } else none
  | .node id => a.updateContent? id (Content.setFlag? field value)

/-- The top has no place of its own. -/
def setPlace? (a : Arena) (field : PlaceField) (value : Nat) : Container → Option Arena
  | .root => none
  | .node id =>
    a.update? id fun entry ↦ some { entry with source := entry.source.setPlace field value }

/-- The nodes keep the parents they were read in. -/
def setChildren? (a : Arena) (ids : List NodeId) (container : Container) : Option Arena :=
  if ids.all a.has then
    match container with
    | .root => some { a with rules := ids }
    | .node id => a.updateContent? id (Content.setChildren? ids)
  else none

/-- If one of the children is unknown, the block gets none. -/
def setBody? (a : Arena) (id : NodeId) (body : Option (BodyKind × List NodeId)) : Option Arena :=
  let body := body.map fun (kind, ids) ↦ (kind, if ids.all a.has then ids else [])
  a.updateContent? id (Content.setBody? body)

def replace? (a : Arena) (id : NodeId) (content : Content) : Option Arena :=
  a.updateContent? id fun _ ↦ some content

end Arena

end Stylesheet
