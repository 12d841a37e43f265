import Stylesheet.Event
import Stylesheet.Parse.Statement

/-!
# The state of a parse

A parse stands in the innermost of the blocks that are open, or at the top of the stylesheet. It
keeps what that container holds so far, the containers around it, and the statement that has been
started but not ended.

Text that belongs to no node is pending: it goes in front of the next node of the container, or
behind the last.
-/

namespace Stylesheet.Parse

/-- The settings that hold for a whole parse. -/
structure Context where
  strict : Bool
  file : Option String

def Context.source (context : Context) (p : Position) : Source :=
  ⟨context.file, p.line, p.column⟩

/-- A container that has not been closed. -/
structure Scope where
  /-- The latest child comes first. -/
  children : List Node := []
  pending : String := ""
  semicolon : Bool := false

namespace Scope

/-- The node takes the pending text with it, so the caller has to put it into the node. -/
def add (scope : Scope) (node : Node) : Scope :=
  { scope with children := node :: scope.children, pending := "" }

def addText (scope : Scope) (text : String) : Scope :=
  { scope with pending := scope.pending ++ text }

end Scope

/-- An open block, and the container it is in as it was when the block was opened. -/
structure Frame where
  source : Source
  head : Head
  outer : Scope

def Frame.position (frame : Frame) : Position :=
  ⟨frame.source.line, frame.source.column⟩

structure State where
  scope : Scope := {}
  /-- The innermost block comes first. -/
  frames : List Frame := []
  statement : Option Statement := none
  /-- The stylesheet has been ended by a brace that closes nothing. -/
  ended : Bool := false
  /-- The latest event comes first. -/
  log : List Event := []

structure Failure where
  kind : ErrorKind
  position : Position
  log : List Event

namespace State

def accepts (s : State) : BodyKind :=
  match s.frames with
  | [] => .rules
  | frame :: _ => frame.head.body

def note (s : State) (event : Event) : State :=
  { s with log := event :: s.log }

def fail (s : State) (kind : ErrorKind) (position : Position) : Except Failure State :=
  .error ⟨kind, position, s.log⟩

def addText (s : State) (text : String) : State :=
  { s with scope := s.scope.addText text }

def addLeaf (s : State) (source : Source) (leaf : Leaf) : State :=
  { s with scope := s.scope.add (.leaf source leaf) }

def setSemicolon (s : State) (semicolon : Bool) : State :=
  { s with scope := { s.scope with semicolon } }

/-- A block is no statement, so the container's last statement is not its own any more. -/
def openBlock (s : State) (source : Source) (head : Head) : State :=
  { s with
    scope := {}
    frames := ⟨source, head, { s.scope with pending := "", semicolon := false }⟩ :: s.frames
    statement := none }

def closeBlock (s : State) : State :=
  match s.frames with
  | [] => s
  | ⟨source, head, outer⟩ :: frames =>
    let block := .block source head s.scope.children.reverse s.scope.pending s.scope.semicolon
    { s with scope := outer.add block, frames }

def tree (s : State) (file : Option String) : Tree where
  rules := s.scope.children.reverse
  after := s.scope.pending
  semicolon := s.scope.semicolon
  file

end State

end Stylesheet.Parse
