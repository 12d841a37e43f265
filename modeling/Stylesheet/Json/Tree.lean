import Stylesheet.Json.Basic
import Stylesheet.Node.Basic

/-!
# The JSON form of trees

Members that say nothing are left out: a flag that is false, an unknown file, the empty text behind
a declaration. The children of a block stand under the name of what the block holds.
-/

namespace Stylesheet

abbrev Members := List (String × Json)

namespace Members

def flag (key : String) (value : Bool) : Members :=
  if value then [(key, .bool true)] else []

def file (file : Option String) : Members :=
  match file with
  | some file => [("file", .string file)]
  | none => []

end Members

def Source.toJson (s : Source) : Json :=
  .object (Members.file s.file ++ [("line", .number s.line), ("column", .number s.column)])

def Declaration.members (d : Declaration) : Members :=
  [("before", .string d.before), ("prop", .string d.prop), ("between", .string d.between),
    ("value", .string d.value)] ++
    Members.flag "important" d.important ++
    if d.after.isEmpty then [] else [("after", .string d.after)]

def Comment.members (c : Comment) : Members :=
  [("before", .string c.before), ("left", .string c.left), ("text", .string c.text),
    ("right", .string c.right)]

def Prelude.members (p : Prelude) : Members :=
  [("before", .string p.before), ("name", .string p.name), ("afterName", .string p.afterName),
    ("params", .string p.params), ("between", .string p.between)]

def Selector.members (s : Selector) : Members :=
  [("before", .string s.before), ("selector", .string s.selector), ("between", .string s.between)]

def Leaf.members : Leaf → Members
  | declaration d => d.members
  | comment c => c.members
  | statement p => p.members

def Head.members : Head → Members
  | rule s => s.members
  | atRule p _ => p.members

namespace Node

mutual

def toJson : Node → Json
  | leaf source l =>
    .object (("type", .string l.kind.name) :: l.members ++ [("source", source.toJson)])
  | block source head children after semicolon =>
    .object (("type", .string head.kind.name) :: head.members ++
      [(head.body.name, .list (toJsonAll children)), ("after", .string after)] ++
      Members.flag "semicolon" semicolon ++ [("source", source.toJson)])

def toJsonAll : List Node → List Json
  | [] => []
  | n :: ns => toJson n :: toJsonAll ns

end

end Node

def Tree.toJson (t : Tree) : Json :=
  .object ([("type", .string NodeKind.root.name), ("rules", .list (Node.toJsonAll t.rules)),
    ("after", .string t.after)] ++
    Members.flag "semicolon" t.semicolon ++
    match t.file with
    | some file => [("source", .object [("file", .string file)])]
    | none => [])

end Stylesheet
