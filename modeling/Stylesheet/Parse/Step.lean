import Stylesheet.Parse.State

/-!
# Reading token by token

Each token takes the parse from one state to the next, or ends it with a failure. At the end of the
text the statement and the blocks still open are closed.

The mode matters where something is to be repaired and nowhere else: strict parsing fails there,
lenient parsing notes the repair and goes on.
-/

namespace Stylesheet.Parse

/-- What cuts a statement off. -/
inductive Ending where
  | semicolon
  | closeCurly
  | endOfText
  deriving DecidableEq, Repr

namespace State

def repairUnclosed (s : State) (context : Context) (t : Token) (kind : ErrorKind) :
    Except Failure State :=
  if !t.unclosed then .ok s
  else if context.strict then s.fail kind t.start
  else .ok (s.note (.readingToEnd t.start kind))

/-- Text that makes no node is kept as it is. -/
def repairStatement (s : State) (context : Context) (statement : Statement) :
    Except Failure State :=
  if context.strict then s.fail .missingPropertyValue statement.first.start
  else
    let text := keptText statement.tokens
    .ok ((s.note (.keepingText statement.first.start text)).addText text)

/-- A property that the end of the text leaves without a value is a declaration all the same. -/
def endDeclaration (s : State) (context : Context) (statement : Statement) (ending : Ending) :
    Except Failure State :=
  let source := context.source statement.first.start
  match Declaration.ofTokens? s.scope.pending statement.tokens with
  | some d =>
    .ok ((s.addLeaf source (.declaration d)).setSemicolon (ending == .semicolon))
  | none =>
    match ending with
    | .endOfText =>
      let d := Declaration.ofProperty s.scope.pending statement.tokens
      .ok ((s.addLeaf source (.declaration d)).setSemicolon false)
    | .closeCurly => s.repairStatement context statement
    | .semicolon => do
      let s ← s.repairStatement context statement
      return (s.addText ";").setSemicolon true

/-- Between rules only at-rules can do without a block. -/
def endAtTop (s : State) (context : Context) (statement : Statement) (ending : Ending) :
    Except Failure State :=
  if statement.isAtRule then
    let p := Prelude.ofTokens s.scope.pending statement.first statement.more.reverse
    .ok ((s.addLeaf (context.source statement.first.start) (.statement p)).setSemicolon
      (ending == .semicolon))
  else do
    let s ← s.repairStatement context statement
    return if ending = .semicolon then s.addText ";" else s

def endStatement (s : State) (context : Context) (statement : Statement) (ending : Ending) :
    Except Failure State :=
  match s.accepts with
  | .declarations => s.endDeclaration context statement ending
  | .rules => s.endAtTop context statement ending

/-- Ends the statement, if there is one, for want of a semicolon. -/
def cutStatement (s : State) (context : Context) (ending : Ending) : Except Failure State :=
  match s.statement with
  | none => .ok s
  | some statement => do
    let (statement, space) := statement.splitSpace
    let s ← { s with statement := none }.endStatement context statement ending
    return s.addText (keptText space)

/-- Adds the token to the statement, or starts one with it. -/
def addToStatement (s : State) (t : Token) : Except Failure State :=
  match s.statement with
  | some statement => .ok { s with statement := some (statement.push t) }
  | none =>
    if t.kind = .atWord ∧ t.text = "@" then s.fail .atRuleWithoutName t.start
    else .ok { s with statement := some { first := t } }

def readSpace (s : State) (t : Token) : State :=
  match s.statement with
  | some statement => { s with statement := some (statement.push t) }
  | none => s.addText t.text

/-- Inside a statement a comment is part of its text. -/
def readComment (s : State) (context : Context) (t : Token) : Except Failure State := do
  let s ← s.repairUnclosed context t .unclosedComment
  match s.statement with
  | some statement => return { s with statement := some (statement.push t) }
  | none =>
    return s.addLeaf (context.source t.start) (.comment (Comment.ofToken s.scope.pending t))

def readOpenCurly (s : State) (context : Context) (t : Token) : Except Failure State :=
  match s.accepts, s.statement with
  | .declarations, _ => s.fail .unexpectedOpenBrace t.start
  | .rules, none =>
    .ok (s.openBlock (context.source t.start) (.rule (Selector.ofTokens s.scope.pending [])))
  | .rules, some statement =>
    let source := context.source statement.first.start
    if statement.isAtRule then
      let p := Prelude.ofTokens s.scope.pending statement.first statement.more.reverse
      .ok (s.openBlock source (.atRule p (bodyKind p.name)))
    else
      .ok (s.openBlock source (.rule (Selector.ofTokens s.scope.pending statement.tokens)))

def readSemicolon (s : State) (context : Context) (t : Token) : Except Failure State :=
  match s.statement with
  | none => .ok (s.addText t.text)
  | some statement => { s with statement := none }.endStatement context statement .semicolon

/-- A brace that closes nothing ends the stylesheet. -/
def readCloseCurly (s : State) (context : Context) (t : Token) : Except Failure State :=
  match s.frames with
  | _ :: _ => do
    let s ← s.cutStatement context .closeCurly
    return s.closeBlock
  | [] =>
    if context.strict then s.fail .unexpectedCloseBrace t.start
    else
      let statement := (s.statement.map Statement.tokens).getD []
      .ok ({ s.note (.unexpectedCloseBrace t.start) with statement := none, ended := true }.addText
        (keptText statement ++ t.text))

def step (context : Context) (s : State) (t : Token) : Except Failure State :=
  if s.ended then .ok (s.addText t.text)
  else
    match t.kind with
    | .space => .ok (s.readSpace t)
    | .comment => s.readComment context t
    | .string => do
      let s ← s.repairUnclosed context t .unclosedQuote
      s.addToStatement t
    | .openCurly => s.readOpenCurly context t
    | .semicolon => s.readSemicolon context t
    | .closeCurly => s.readCloseCurly context t
    | .word | .atWord | .colon | .other => s.addToStatement t

/-- Closes what the end of the text leaves open, from the inside out. -/
def finish (context : Context) (s : State) : Except Failure State :=
  if s.ended then .ok s
  else
    match context.strict, s.frames with
    | true, frame :: _ => s.fail .unclosedBlock frame.position
    | _, _ => do
      let s ← s.cutStatement context .endOfText
      return s.frames.foldl (fun s frame ↦ (s.note (.closingBlock frame.position)).closeBlock) s

end State

end Stylesheet.Parse
