/-!
# What nodes say

The content of a node, apart from the nodes inside of it. All texts are kept as they were written,
white space included; printed in order and with the delimiters put back, they give the node's text.
-/

namespace Stylesheet

inductive NodeKind where
  | root
  | atRule
  | rule
  | declaration
  | comment
  deriving DecidableEq, Repr

def NodeKind.name : NodeKind → String
  | root => "root"
  | atRule => "atrule"
  | rule => "rule"
  | declaration => "decl"
  | comment => "comment"

/-- What a block may hold beside comments. -/
inductive BodyKind where
  | rules
  | declarations
  deriving DecidableEq, Repr

def BodyKind.name : BodyKind → String
  | rules => "rules"
  | declarations => "decls"

/-- Where a node starts, and in which file if that is known. -/
structure Source where
  file : Option String
  line : Nat
  column : Nat
  deriving DecidableEq, Repr

structure Declaration where
  before : String
  prop : String
  /-- The colon and the white space around it. -/
  between : String
  value : String
  important : Bool
  /-- The marker that makes a value important, and the white space behind the value. -/
  after : String
  deriving DecidableEq, Repr

structure Comment where
  before : String
  left : String
  text : String
  right : String
  deriving DecidableEq, Repr

/-- An at-rule up to its block or its end. -/
structure Prelude where
  before : String
  name : String
  afterName : String
  params : String
  between : String
  deriving DecidableEq, Repr

/-- A rule up to its block. -/
structure Selector where
  before : String
  selector : String
  between : String
  deriving DecidableEq, Repr

/-- A node that holds no others. -/
inductive Leaf where
  | declaration (declaration : Declaration)
  | comment (comment : Comment)
  /-- An at-rule without a block. -/
  | statement (prelude : Prelude)
  deriving DecidableEq, Repr

/-- What stands in front of a block. -/
inductive Head where
  | rule (selector : Selector)
  | atRule (prelude : Prelude) (body : BodyKind)
  deriving DecidableEq, Repr

namespace Leaf

def kind : Leaf → NodeKind
  | declaration _ => .declaration
  | comment _ => .comment
  | statement _ => .atRule

def before : Leaf → String
  | declaration d => d.before
  | comment c => c.before
  | statement p => p.before

def isComment : Leaf → Bool
  | comment _ => true
  | _ => false

/-- Declarations and at-rules without a block end with a semicolon; comments do not. -/
def isStatement (leaf : Leaf) : Bool :=
  !leaf.isComment

end Leaf

namespace Head

def kind : Head → NodeKind
  | rule _ => .rule
  | atRule _ _ => .atRule

def before : Head → String
  | rule s => s.before
  | atRule p _ => p.before

/-- What the block may hold. -/
def body : Head → BodyKind
  | rule _ => .declarations
  | atRule _ body => body

end Head

end Stylesheet
