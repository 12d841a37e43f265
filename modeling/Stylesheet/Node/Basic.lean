import Stylesheet.Node.Fields

/-!
# Nodes and trees

A tree is the content of a stylesheet: rules, at-rules and comments, with declarations inside the
blocks. Its shape is that of the text; which node may stand where is a matter of the text too, and
trees put together in another way may hold any node anywhere.
-/

namespace Stylesheet

inductive Node where
  | leaf (source : Source) (leaf : Leaf)
  /-- `after` is the text between the last child and the closing brace; `semicolon` tells whether
  the last statement inside has a semicolon of its own. -/
  | block (source : Source) (head : Head) (children : List Node) (after : String)
      (semicolon : Bool)

namespace Node

def isComment : Node → Bool
  | leaf _ l => l.isComment
  | block .. => false

def isStatement : Node → Bool
  | leaf _ l => l.isStatement
  | block .. => false

end Node

structure Tree where
  rules : List Node
  /-- The text behind the last node. -/
  after : String
  /-- The last statement at the top has a semicolon of its own. -/
  semicolon : Bool
  file : Option String

end Stylesheet
