import Stylesheet.Parse
import Stylesheet.Proofs.Checked.Arena
import Stylesheet.Proofs.Checked.Sheet

/-!
# The checked machine

The machine reads a text with an index into its tokens, a stack of open containers and an arena
that it fills. It knows a statement by the index of its first token and a container by its number.

Whatever it looks up can be missing: a token behind the last, the top of an empty stack, a slice
that is none, a number that is not in the arena, the children of a leaf. The machine then stops with
`Halt.missing`. It does so too if a container on the stack cannot hold nodes.
-/

namespace Stylesheet.Checked

open Parse

/-- A container on the stack. -/
structure Layer where
  container : Container
  accepts : BodyKind
  pending : String
  start : Position

structure Machine where
  arena : Arena
  /-- The innermost container comes first. -/
  layers : List Layer
  /-- The index of the first token of the statement. -/
  statement : Option Nat := none
  /-- The latest event comes first. -/
  log : List Event

namespace Machine

/-! ## Containers -/

def top (m : Machine) : Run Layer :=
  reach m.layers.head?

/-- There is a container on the stack, and all of them can hold nodes. -/
def intact (m : Machine) : Run Machine :=
  if m.layers ≠ [] ∧ m.layers.all (m.arena.holds ·.container) then .ok m else .error .missing

def note (m : Machine) (event : Event) : Machine :=
  { m with log := event :: m.log }

def fail {α : Type} (m : Machine) (kind : ErrorKind) (position : Position) : Run α :=
  .error (.failed ⟨kind, position, m.log⟩)

def addText (m : Machine) (text : String) : Run Machine :=
  match m.layers with
  | [] => .error .missing
  | layer :: layers =>
    .ok { m with layers := { layer with pending := layer.pending ++ text } :: layers }

/-- The node takes the pending text with it, so the caller has to put it into the content. -/
def add (m : Machine) (source : Source) (content : Content) : Run Machine :=
  match m.layers with
  | [] => .error .missing
  | layer :: layers => do
    let arena ← reach (m.arena.add? ⟨layer.container, source, content⟩)
    return { m with arena, layers := { layer with pending := "" } :: layers }

def setSemicolon (m : Machine) (semicolon : Bool) : Run Machine := do
  let layer ← m.top
  let arena ← reach (m.arena.alter? (fun inside ↦ { inside with semicolon }) layer.container)
  return { m with arena }

def openBlock (m : Machine) (context : Context) (start : Position) (head : Head) :
    Run Machine := do
  let id := m.arena.size
  let m ← m.add (context.source start) (.block head [] "" false)
  let m ← m.setSemicolon false
  return { m with layers := ⟨.node id, head.body, "", start⟩ :: m.layers }

def closeLayer (m : Machine) : Run Machine :=
  match m.layers with
  | [] => .ok m
  | layer :: layers => do
    let after (inside : Arena.Filling) := { inside with after := layer.pending }
    let arena ← reach (m.arena.alter? after layer.container)
    return { m with arena, layers }

/-! ## Statements -/

section

variable (m : Machine) (sheet : Sheet) (start stop : Nat)

def rule : Run Machine := do
  let first ← sheet.token start
  let layer ← m.top
  let selector ← sheet.selector layer.pending start stop
  m.openBlock sheet.context first.start (.rule selector)

/-- An at-rule that nothing ends has a block. -/
def atRule (ending : Option Ending) : Run Machine := do
  let first ← sheet.token start
  let layer ← m.top
  let p ← sheet.prelude layer.pending start stop
  match ending with
  | none => m.openBlock sheet.context first.start (.atRule p (bodyKind p.name))
  | some ending =>
    let m ← m.add (sheet.context.source first.start) (.leaf (.statement p))
    m.setSemicolon (ending == .semicolon)

/-- Text that makes no node is kept as it is, unless parsing is strict. -/
def keep : Run Machine := do
  let first ← sheet.token start
  if sheet.context.strict then m.fail .missingPropertyValue first.start
  else
    let text ← sheet.slice start stop
    (m.note (.keepingText first.start text)).addText text

def missingValue (ending : Ending) : Run Machine := do
  match ending with
  | .endOfText =>
    let first ← sheet.token start
    let layer ← m.top
    let prop ← sheet.slice start stop
    let m ← m.add (sheet.context.source first.start)
      (.leaf (.declaration ⟨layer.pending, prop, "", "", false, ""⟩))
    m.setSemicolon false
  | .closeCurly => m.keep sheet start stop
  | .semicolon =>
    let m ← m.keep sheet start stop
    let m ← m.addText ";"
    m.setSemicolon true

def declaration (ending : Ending) : Run Machine := do
  let layer ← m.top
  match ← sheet.declaration layer.pending start stop with
  | none => m.missingValue sheet start stop ending
  | some d =>
    let first ← sheet.token start
    let m ← m.add (sheet.context.source first.start) (.leaf (.declaration d))
    m.setSemicolon (ending == .semicolon)

/-- Text between rules is kept, save for at-rules without a block. -/
def atTop (ending : Ending) : Run Machine := do
  let first ← sheet.token start
  if first.kind = .atWord then m.atRule sheet start stop (some ending)
  else
    let m ← m.keep sheet start stop
    if ending = .semicolon then m.addText ";" else return m

def endStatement (ending : Ending) : Run Machine := do
  let layer ← m.top
  match layer.accepts with
  | .declarations => m.declaration sheet start stop ending
  | .rules => m.atTop sheet start stop ending

/-- White space at the end is no part of a statement that ends with its block. -/
def cutStatement (ending : Ending) : Run Machine :=
  match m.statement with
  | none => .ok m
  | some start => do
    let trimmed ← sheet.trimEnd start stop
    let m ← { m with statement := none }.endStatement sheet start trimmed ending
    let space ← sheet.slice trimmed stop
    m.addText space

end

/-! ## Tokens -/

section

variable (m : Machine) (sheet : Sheet) (index : Nat) (t : Token)

def repairUnclosed (kind : ErrorKind) : Run Machine :=
  if !t.unclosed then .ok m
  else if sheet.context.strict then m.fail kind t.start
  else .ok (m.note (.readingToEnd t.start kind))

/-- Takes the token for the first of a statement, unless there is one already. -/
def begin : Run Machine :=
  match m.statement with
  | some _ => .ok m
  | none =>
    if t.kind = .atWord ∧ t.text.utf8ByteSize = 1 then m.fail .atRuleWithoutName t.start
    else .ok { m with statement := some index }

def readSpace : Run Machine :=
  match m.statement with
  | some _ => .ok m
  | none => m.addText t.text

def readComment : Run Machine := do
  let m ← m.repairUnclosed sheet t .unclosedComment
  match m.statement with
  | some _ => return m
  | none =>
    let layer ← m.top
    let c ← comment layer.pending t
    m.add (sheet.context.source t.start) (.leaf (.comment c))

def readOpenCurly : Run Machine := do
  let layer ← m.top
  match layer.accepts, m.statement with
  | .declarations, _ => m.fail .unexpectedOpenBrace t.start
  | .rules, none => m.rule sheet index index
  | .rules, some start =>
    let first ← sheet.token start
    let m := { m with statement := none }
    if first.kind = .atWord then m.atRule sheet start index none else m.rule sheet start index

def readSemicolon : Run Machine :=
  match m.statement with
  | none => m.addText ";"
  | some start => { m with statement := none }.endStatement sheet start index .semicolon

def readCloseCurly : Run Machine := do
  let m ← m.cutStatement sheet index .closeCurly
  m.closeLayer

/-- The text of the statement up to the index. -/
def heldText : Run String :=
  match m.statement with
  | none => .ok ""
  | some start => sheet.slice start index

/-- A brace that closes nothing ends the stylesheet. -/
def stop : Run (Arena × List Event) :=
  if sheet.context.strict then m.fail .unexpectedCloseBrace t.start
  else do
    let layer ← m.top
    let statement ← m.heldText sheet index
    let rest ← sliceFrom sheet.text t.span.start
    let after := layer.pending ++ statement ++ String.ofList rest
    return ({ m.arena with after }, (m.note (.unexpectedCloseBrace t.start)).log)

def step : Run Machine :=
  match t.kind with
  | .space => m.readSpace t
  | .comment => m.readComment sheet t
  | .string => do
    let m ← m.repairUnclosed sheet t .unclosedQuote
    m.begin index t
  | .openCurly => m.readOpenCurly sheet index t
  | .semicolon => m.readSemicolon sheet index
  | .closeCurly => m.readCloseCurly sheet index
  | .word | .atWord | .colon | .other => m.begin index t

end

/-! ## A whole text -/

/-- Closes so many blocks, and then the top. -/
def closeLayers : (blocks : Nat) → Machine → Run (Arena × List Event)
  | 0, m => do
    let m ← m.closeLayer
    return (m.arena, m.log)
  | blocks + 1, m => do
    let layer ← m.top
    let m ← (m.note (.closingBlock layer.start)).closeLayer
    closeLayers blocks m

def finish (m : Machine) (sheet : Sheet) : Run (Arena × List Event) := do
  if sheet.context.strict ∧ 1 < m.layers.length then
    let layer ← m.top
    m.fail .unclosedBlock layer.start
  else
    let m ← m.cutStatement sheet sheet.tokens.size .endOfText
    closeLayers (m.layers.length - 1) m

/-- Reads so many tokens, and then the end of the text. -/
def run (sheet : Sheet) : (count index : Nat) → Machine → Run (Arena × List Event)
  | 0, _, m => do
    let m ← m.intact
    m.finish sheet
  | count + 1, index, m => do
    let m ← m.intact
    let t ← sheet.token index
    if t.kind = .closeCurly ∧ m.layers.length = 1 then m.stop sheet index t
    else
      let m ← m.step sheet index t
      run sheet count (index + 1) m

def start (sheet : Sheet) (text : String) : Machine where
  arena := ⟨#[], [], "", false, sheet.context.file⟩
  layers := [⟨.root, .rules, "", {}⟩]
  log := [.parsing sheet.context.strict text.utf8ByteSize, .tokenized sheet.tokens.size]

end Machine

/-- The events and the result, if the machine has not missed anything. -/
def read? (options : Options) (text : String) : Option (List Event × Except ParseError Arena) :=
  let sheet := Sheet.ofText ⟨options.strict, options.file⟩ text
  match Machine.run sheet sheet.tokens.size 0 (Machine.start sheet text) with
  | .ok (arena, log) => some ((.parsed arena.size :: log).reverse, .ok arena)
  | .error (.failed failure) =>
    some (failure.log.reverse, .error ⟨failure.kind, failure.position, text, options.file⟩)
  | .error .missing => none

end Stylesheet.Checked
