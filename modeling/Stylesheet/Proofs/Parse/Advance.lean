import Stylesheet.Parse.Step
import Stylesheet.Proofs.Parse.Fields

/-!
# What a step does

Three questions settle what becomes of a token. Does it end every parse (`State.fatal?`)? Does it
call for a repair (`State.repair?`)? What is the next state (`State.advance`)? None of the answers
depends on the mode or on the log. The mode decides only whether a repair is made or refused
(`State.step_eq`), and the end of the text is read in the same way (`State.finish_lenient`,
`State.finish_strict`).
-/

namespace Stylesheet

namespace Event

/-- The error that strict parsing ends with where lenient parsing reports the event. -/
def refusal? : Event → Option (ErrorKind × Position)
  | readingToEnd position kind => some (kind, position)
  | unexpectedCloseBrace position => some (.unexpectedCloseBrace, position)
  | closingBlock position => some (.unclosedBlock, position)
  | keepingText position _ => some (.missingPropertyValue, position)
  | _ => none

/-- Reports a brace that ends the stylesheet. -/
def isStop : Event → Bool
  | unexpectedCloseBrace _ => true
  | _ => false

/-- Reports a block that the end of the text closes. -/
def isClosing : Event → Bool
  | closingBlock _ => true
  | _ => false

/-- Repairs are what strict parsing refuses. -/
theorem isRepair_eq_isSome_refusal? (e : Event) : e.isRepair = e.refusal?.isSome := by
  cases e <;> rfl

end Event

namespace Parse.State

/-! ## Statements -/

/-- The node that the statement makes, if it makes one. -/
def leaf? (s : State) (statement : Statement) (ending : Ending) : Option Leaf :=
  match s.accepts with
  | .declarations =>
    match Declaration.ofTokens? s.scope.pending statement.tokens with
    | some d => some (.declaration d)
    | none =>
      if ending = .endOfText then
        some (.declaration (Declaration.ofProperty s.scope.pending statement.tokens))
      else none
  | .rules =>
    if statement.isAtRule then
      some (.statement
        (Prelude.ofTokens s.scope.pending statement.first statement.more.reverse))
    else none

/-- The text of a statement that makes no node is kept. Among declarations its semicolon counts as
one of the container. -/
def keepStatement (s : State) (statement : Statement) (ending : Ending) : State :=
  let kept := s.addText (keptText statement.tokens)
  if ending = .semicolon then
    match s.accepts with
    | .declarations => (kept.addText ";").setSemicolon true
    | .rules => kept.addText ";"
  else kept

def conclude (context : Context) (s : State) (statement : Statement) (ending : Ending) : State :=
  match s.leaf? statement ending with
  | some leaf =>
    (s.addLeaf (context.source statement.first.start) leaf).setSemicolon (ending == .semicolon)
  | none => s.keepStatement statement ending

def keeping? (s : State) (statement : Statement) (ending : Ending) : Option Event :=
  match s.leaf? statement ending with
  | some _ => none
  | none => some (.keepingText statement.first.start (keptText statement.tokens))

def cut (context : Context) (s : State) (ending : Ending) : State :=
  match s.statement with
  | none => s
  | some statement =>
    ({ s with statement := none }.conclude context statement.splitSpace.1 ending).addText
      (keptText statement.splitSpace.2)

def cutRepair? (s : State) (ending : Ending) : Option Event :=
  s.statement.bind fun statement ↦ s.keeping? statement.splitSpace.1 ending

section

variable (context : Context) (s : State) (statement : Statement) (ending : Ending)

/-- A statement that ends changes the container alone. -/
theorem conclude_eq :
    s.conclude context statement ending =
      { s with scope := (s.conclude context statement ending).scope } := by
  unfold conclude keepStatement
  cases s.leaf? statement ending with
  | some leaf => rfl
  | none => cases ending <;> cases s.accepts <;> rfl

theorem cut_eq :
    s.cut context ending = { s with scope := (s.cut context ending).scope, statement := none } := by
  obtain ⟨scope, frames, statement, ended, log⟩ := s
  cases statement with
  | none => rfl
  | some statement =>
    have hconclude := conclude_eq context ⟨scope, frames, none, ended, log⟩
      statement.splitSpace.1 ending
    exact congrArg (addText · (keptText statement.splitSpace.2)) hconclude

theorem frames_cut : (s.cut context ending).frames = s.frames := by
  rw [cut_eq]

end

/-! ## Tokens -/

/-- The statement goes on with the token or starts with it. -/
def hold (s : State) (t : Token) : State :=
  match s.statement with
  | some statement => { s with statement := some (statement.push t) }
  | none => { s with statement := some { first := t } }

/-- Inside a statement a comment is held with it. -/
def addComment (context : Context) (s : State) (t : Token) : State :=
  match s.statement with
  | some _ => s.hold t
  | none => s.addLeaf (context.source t.start) (.comment (Comment.ofToken s.scope.pending t))

/-- The head of the block that the brace opens, and where it starts. -/
def blockHead (context : Context) (s : State) (brace : Token) : Source × Head :=
  match s.statement with
  | none => (context.source brace.start, .rule (Selector.ofTokens s.scope.pending []))
  | some statement =>
    let source := context.source statement.first.start
    if statement.isAtRule then
      let p := Prelude.ofTokens s.scope.pending statement.first statement.more.reverse
      (source, .atRule p (bodyKind p.name))
    else (source, .rule (Selector.ofTokens s.scope.pending statement.tokens))

/-- The tokens of the statement that has been started, if there is one. -/
def heldTokens (s : State) : List Token :=
  (s.statement.map Statement.tokens).getD []

@[simp]
theorem heldTokens_none {s : State} (h : s.statement = none) : s.heldTokens = [] := by
  rw [heldTokens, h]
  rfl

@[simp]
theorem heldTokens_some {s : State} {statement : Statement} (h : s.statement = some statement) :
    s.heldTokens = statement.tokens := by
  rw [heldTokens, h]
  rfl

theorem heldTokens_hold (s : State) (t : Token) : (s.hold t).heldTokens = s.heldTokens ++ [t] := by
  unfold hold
  cases hstatement : s.statement with
  | none =>
    rw [heldTokens_none hstatement]
    rfl
  | some statement =>
    rw [heldTokens_some hstatement, ← Statement.tokens_push]
    rfl

def fatal? (s : State) (t : Token) : Option (ErrorKind × Position) :=
  if s.ended then none
  else if t.kind = .openCurly ∧ s.accepts = .declarations then
    some (.unexpectedOpenBrace, t.start)
  else if t.kind = .atWord ∧ s.statement.isNone ∧ t.text = "@" then
    some (.atRuleWithoutName, t.start)
  else none

def repair? (s : State) (t : Token) : Option Event :=
  if s.ended then none
  else
    match t.kind with
    | .string => if t.unclosed then some (.readingToEnd t.start .unclosedQuote) else none
    | .comment => if t.unclosed then some (.readingToEnd t.start .unclosedComment) else none
    | .semicolon => s.statement.bind fun statement ↦ s.keeping? statement .semicolon
    | .closeCurly =>
      match s.frames with
      | [] => some (.unexpectedCloseBrace t.start)
      | _ :: _ => s.cutRepair? .closeCurly
    | _ => none

def advance (context : Context) (s : State) (t : Token) : State :=
  if s.ended then s.addText t.text
  else
    match t.kind with
    | .space => s.readSpace t
    | .comment => s.addComment context t
    | .openCurly =>
      s.openBlock (s.blockHead context t).1 (s.blockHead context t).2
    | .semicolon =>
      match s.statement with
      | none => s.addText t.text
      | some statement => { s with statement := none }.conclude context statement .semicolon
    | .closeCurly =>
      match s.frames with
      | _ :: _ => (s.cut context .closeCurly).closeBlock
      | [] =>
        { s with statement := none, ended := true }.addText (keptText s.heldTokens ++ t.text)
    | .string | .word | .atWord | .colon | .other => s.hold t

/-! ## The log

Whatever is done to a state, its log plays no part in it, and unless a repair is made the log stays
as it is.
-/

def withLog (s : State) (log : List Event) : State :=
  { s with log }

section

variable (context : Context) (s : State) (t : Token) (statement : Statement) (ending : Ending)
variable (log : List Event)

@[simp]
theorem log_withLog : (s.withLog log).log = log := rfl

@[simp]
theorem ended_withLog : (s.withLog log).ended = s.ended := rfl

@[simp]
theorem frames_withLog : (s.withLog log).frames = s.frames := rfl

@[simp]
theorem withLog_withLog (log' : List Event) :
    (s.withLog log).withLog log' = s.withLog log' := rfl

/-- What leaves the log out of account also leaves it alone. -/
theorem log_of_withLog {f : State → State} (hf : ∀ s log, f (s.withLog log) = (f s).withLog log) :
    (f s).log = s.log := by
  have hsame : f s = (f s).withLog s.log := hf s s.log
  rw [hsame, log_withLog]

theorem note_of_withLog {f : State → State} (hf : ∀ s log, f (s.withLog log) = (f s).withLog log)
    (e : Event) : f (s.note e) = (f s).note e := by
  calc f (s.note e)
    _ = (f s).withLog (e :: s.log) := hf s (e :: s.log)
    _ = (f s).note e := by rw [note, withLog, log_of_withLog s hf]

theorem hold_withLog : (s.withLog log).hold t = (s.hold t).withLog log := by
  obtain ⟨scope, frames, statement, ended, before⟩ := s
  cases statement <;> rfl

theorem addComment_withLog :
    (s.withLog log).addComment context t = (s.addComment context t).withLog log := by
  obtain ⟨scope, frames, statement, ended, before⟩ := s
  cases statement <;> rfl

theorem closeBlock_withLog : (s.withLog log).closeBlock = s.closeBlock.withLog log := by
  obtain ⟨scope, frames, statement, ended, before⟩ := s
  cases frames <;> rfl

theorem conclude_withLog :
    (s.withLog log).conclude context statement ending =
      (s.conclude context statement ending).withLog log := by
  have hleaf : (s.withLog log).leaf? statement ending = s.leaf? statement ending := rfl
  have haccepts : (s.withLog log).accepts = s.accepts := rfl
  unfold conclude
  rw [hleaf]
  cases s.leaf? statement ending with
  | some leaf => rfl
  | none =>
    dsimp only
    unfold keepStatement
    rw [haccepts]
    cases ending <;> cases s.accepts <;> rfl

theorem cut_withLog : (s.withLog log).cut context ending = (s.cut context ending).withLog log := by
  have hsame : (s.withLog log).statement = s.statement := rfl
  unfold cut
  rw [hsame]
  cases s.statement with
  | none => rfl
  | some statement =>
    have hconclude := conclude_withLog context { s with statement := none }
      statement.splitSpace.1 ending log
    exact congrArg (addText · _) hconclude

theorem advance_withLog :
    (s.withLog log).advance context t = (s.advance context t).withLog log := by
  obtain ⟨scope, frames, statement, ended, before⟩ := s
  cases ended with
  | true => rfl
  | false =>
    cases hkind : t.kind <;> simp only [advance, withLog, Bool.false_eq_true, if_false, hkind]
    case openCurly => rfl
    case closeCurly =>
      cases frames with
      | nil => rfl
      | cons frame frames =>
        have hcut := cut_withLog context ⟨scope, frame :: frames, statement, false, before⟩
          .closeCurly log
        exact (congrArg closeBlock hcut).trans (closeBlock_withLog _ log)
    case semicolon =>
      cases statement with
      | none => rfl
      | some statement =>
        exact conclude_withLog context ⟨scope, frames, none, false, before⟩ statement .semicolon log
    all_goals cases statement <;> rfl

@[simp]
theorem log_advance : (s.advance context t).log = s.log :=
  log_of_withLog s (f := (advance context · t)) fun s log ↦ advance_withLog context s t log

theorem foldl_closeBlock_withLog (frames : List Frame) :
    frames.foldl (fun s _ ↦ s.closeBlock) (s.withLog log) =
      (frames.foldl (fun s _ ↦ s.closeBlock) s).withLog log := by
  induction frames generalizing s with
  | nil => rfl
  | cons frame frames ih =>
    rw [List.foldl_cons, closeBlock_withLog, ih]
    rfl

end

/-! ## Tokens, in either mode -/

/-- A repair is made and noted, or refused. -/
def repaired (context : Context) (log : List Event) (next : State) :
    Option Event → Except Failure State
  | none => .ok next
  | some e =>
    match if context.strict then e.refusal? else none with
    | some (kind, position) => .error ⟨kind, position, log⟩
    | none => .ok (next.note e)

variable (context : Context) (s : State) (t : Token) (statement : Statement) (ending : Ending)

theorem endStatement_eq :
    s.endStatement context statement ending =
      repaired context s.log (s.conclude context statement ending)
        (s.keeping? statement ending) := by
  unfold endStatement conclude keeping? leaf? keepStatement
  cases haccepts : s.accepts with
  | declarations =>
    unfold endDeclaration
    cases Declaration.ofTokens? s.scope.pending statement.tokens with
    | some d => rfl
    | none =>
      cases ending with
      | endOfText => rfl
      | closeCurly =>
        unfold repairStatement repaired
        cases context.strict <;> rfl
      | semicolon =>
        unfold repairStatement repaired
        cases context.strict <;> rfl
  | rules =>
    unfold endAtTop
    cases statement.isAtRule with
    | true => rfl
    | false =>
      unfold repairStatement repaired
      cases ending <;> cases context.strict <;> rfl

/-- What does not look at the log can as well be done before the repair is noted. -/
theorem repaired_bind (log : List Event) (next : State) (repair : Option Event) {f : State → State}
    (hf : ∀ s log, f (s.withLog log) = (f s).withLog log) :
    (repaired context log next repair >>= fun s ↦ .ok (f s)) =
      repaired context log (f next) repair := by
  cases repair with
  | none => rfl
  | some e =>
    dsimp only [repaired]
    cases if context.strict then e.refusal? else none with
    | some refusal => rfl
    | none => exact congrArg Except.ok (note_of_withLog next hf e)

variable {context} in
theorem repaired_lenient (h : context.strict = false) (next : State) (repair : Option Event) :
    repaired context next.log next repair = .ok (next.withLog (repair.toList ++ next.log)) := by
  cases repair with
  | none => rfl
  | some e =>
    rw [repaired, h]
    rfl

variable {context} in
theorem repaired_strict (h : context.strict = true) (log : List Event) (next : State)
    {repair : Option Event} (hrepair : ∀ e ∈ repair, e.isRepair = true) :
    repaired context log next repair =
      match repair.bind Event.refusal? with
      | some (kind, position) => .error ⟨kind, position, log⟩
      | none => .ok next := by
  cases repair with
  | none => rfl
  | some e =>
    have hrefusal := hrepair e rfl
    rw [Event.isRepair_eq_isSome_refusal?] at hrefusal
    obtain ⟨refusal, hrefusal⟩ := Option.isSome_iff_exists.mp hrefusal
    rw [repaired, h, if_pos rfl, Option.bind_some, hrefusal]

theorem exists_of_mem_keeping? {e : Event} (h : e ∈ s.keeping? statement ending) :
    ∃ position text, e = .keepingText position text := by
  unfold keeping? at h
  cases hleaf : s.leaf? statement ending with
  | some leaf => simp [hleaf] at h
  | none =>
    simp only [hleaf, Option.mem_some_iff] at h
    exact ⟨_, _, h.symm⟩

theorem exists_of_mem_cutRepair? {e : Event} (h : e ∈ s.cutRepair? ending) :
    ∃ position text, e = .keepingText position text := by
  obtain ⟨statement, _, hkeeping⟩ := Option.bind_eq_some_iff.mp h
  exact exists_of_mem_keeping? s _ ending hkeeping

theorem isRepair_of_mem_cutRepair? {e : Event} (h : e ∈ s.cutRepair? ending) :
    e.isRepair = true := by
  obtain ⟨position, text, rfl⟩ := exists_of_mem_cutRepair? s ending h
  rfl

/-- The repairs that a token can call for. -/
theorem eq_of_mem_repair? {e : Event} (h : e ∈ s.repair? t) :
    (∃ kind, e = .readingToEnd t.start kind ∧ (kind = .unclosedQuote ∨ kind = .unclosedComment)) ∨
      (e = .unexpectedCloseBrace t.start ∧ t.kind = .closeCurly ∧ s.frames = []) ∨
        ∃ position text, e = .keepingText position text := by
  unfold repair? at h
  split at h
  · contradiction
  · have hunclosed (kind : ErrorKind) : e ∈ (if t.unclosed then
        some (Event.readingToEnd t.start kind) else none) → e = .readingToEnd t.start kind := by
      intro hmem
      obtain ⟨_, hsome⟩ := Option.mem_ite_none_right.mp hmem
      exact (Option.mem_some_iff.mp hsome).symm
    cases hkind : t.kind <;> simp only [hkind] at h
    case string => exact .inl ⟨_, hunclosed _ h, .inl rfl⟩
    case comment => exact .inl ⟨_, hunclosed _ h, .inr rfl⟩
    case semicolon =>
      obtain ⟨statement, _, hkeeping⟩ := Option.bind_eq_some_iff.mp h
      exact .inr (.inr (exists_of_mem_keeping? s _ _ hkeeping))
    case closeCurly =>
      cases hframes : s.frames <;> simp only [hframes] at h
      · exact .inr (.inl ⟨(Option.mem_some_iff.mp h).symm, rfl, rfl⟩)
      · exact .inr (.inr (exists_of_mem_cutRepair? s _ h))
    all_goals contradiction

theorem isRepair_of_mem_repair? {e : Event} (h : e ∈ s.repair? t) : e.isRepair = true := by
  obtain ⟨kind, rfl, _⟩ | ⟨rfl, _⟩ | ⟨position, text, rfl⟩ := eq_of_mem_repair? s t h <;> rfl

theorem cutStatement_eq :
    s.cutStatement context ending =
      repaired context s.log (s.cut context ending) (s.cutRepair? ending) := by
  unfold cutStatement cut cutRepair?
  cases s.statement with
  | none => rfl
  | some statement =>
    simp only [endStatement_eq]
    exact repaired_bind context _ _ _
      (f := fun s ↦ s.addText (keptText statement.splitSpace.2)) fun _ _ ↦ rfl

theorem addToStatement_eq :
    s.addToStatement t =
      if t.kind = .atWord ∧ s.statement.isNone ∧ t.text = "@" then
        s.fail .atRuleWithoutName t.start
      else .ok (s.hold t) := by
  unfold addToStatement hold
  cases s.statement with
  | none => simp
  | some statement => simp

theorem repairUnclosed_eq (kind : ErrorKind) :
    s.repairUnclosed context t kind =
      repaired context s.log s
        (if t.unclosed then some (.readingToEnd t.start kind) else none) := by
  unfold repairUnclosed repaired
  cases t.unclosed <;> cases context.strict <;> rfl

theorem readComment_eq :
    s.readComment context t =
      repaired context s.log (s.addComment context t)
        (if t.unclosed then some (.readingToEnd t.start .unclosedComment) else none) := by
  have hadd (s : State) : (match s.statement with
      | some statement => pure { s with statement := some (statement.push t) }
      | none =>
        pure (s.addLeaf (context.source t.start)
          (.comment (Comment.ofToken s.scope.pending t)))) =
      Except.ok (ε := Failure) (s.addComment context t) := by
    unfold addComment hold
    cases s.statement <;> rfl
  have hbind := repaired_bind context s.log s
    (if t.unclosed then some (.readingToEnd t.start .unclosedComment) else none)
    (f := (addComment context · t)) fun s log ↦ addComment_withLog context s t log
  rw [← repairUnclosed_eq] at hbind
  exact (congrArg (s.repairUnclosed context t .unclosedComment >>= ·) (funext hadd)).trans hbind

theorem readOpenCurly_eq :
    s.readOpenCurly context t =
      match if s.accepts = .declarations then some (ErrorKind.unexpectedOpenBrace, t.start)
        else none with
      | some (kind, position) => s.fail kind position
      | none => .ok (s.openBlock (s.blockHead context t).1 (s.blockHead context t).2) := by
  unfold readOpenCurly blockHead
  cases haccepts : s.accepts with
  | declarations => rfl
  | rules =>
    cases hstatement : s.statement with
    | none => rfl
    | some statement =>
      cases hrule : statement.isAtRule with
      | true => simp only [hrule, reduceCtorEq, if_true, if_false]
      | false => simp only [hrule, reduceCtorEq, if_false, Bool.false_eq_true]

theorem readCloseCurly_eq :
    s.readCloseCurly context t =
      repaired context s.log
        (match s.frames with
        | _ :: _ => (s.cut context .closeCurly).closeBlock
        | [] =>
          { s with statement := none, ended := true }.addText (keptText s.heldTokens ++ t.text))
        (match s.frames with
        | [] => some (.unexpectedCloseBrace t.start)
        | _ :: _ => s.cutRepair? .closeCurly) := by
  obtain ⟨scope, frames, statement, ended, log⟩ := s
  cases frames with
  | nil =>
    unfold readCloseCurly repaired
    cases context.strict <;> rfl
  | cons frame frames =>
    unfold readCloseCurly
    simp only [cutStatement_eq]
    exact repaired_bind context _ _ _ closeBlock_withLog

theorem step_eq :
    s.step context t =
      match s.fatal? t with
      | some (kind, position) => s.fail kind position
      | none => repaired context s.log (s.advance context t) (s.repair? t) := by
  unfold step fatal? repair? advance
  cases hended : s.ended with
  | true => rfl
  | false =>
    simp only [Bool.false_eq_true, if_false]
    cases hkind : t.kind with
    | space => rfl
    | word => simp [addToStatement_eq, hkind, repaired]
    | colon => simp [addToStatement_eq, hkind, repaired]
    | other => simp [addToStatement_eq, hkind, repaired]
    | atWord =>
      rw [addToStatement_eq, hkind]
      simp only [reduceCtorEq, false_and, true_and, if_false]
      split <;> rfl
    | string =>
      have hhold (s : State) : s.addToStatement t = .ok (s.hold t) := by
        simp [addToStatement_eq, hkind]
      simp only [hhold, repairUnclosed_eq, reduceCtorEq, false_and, if_false]
      exact repaired_bind context _ _ _ fun s log ↦ hold_withLog s t log
    | comment =>
      simp only [reduceCtorEq, false_and, if_false]
      exact readComment_eq context s t
    | openCurly =>
      simp only [true_and, reduceCtorEq, false_and, if_false]
      exact readOpenCurly_eq context s t
    | closeCurly =>
      simp only [reduceCtorEq, false_and, if_false]
      exact readCloseCurly_eq context s t
    | semicolon =>
      simp only [readSemicolon, endStatement_eq, reduceCtorEq, false_and, if_false]
      cases hstatement : s.statement with
      | none => rfl
      | some statement =>
        simp only [hended]
        rfl

theorem ended_hold : (s.hold t).ended = s.ended := by
  unfold hold
  cases s.statement <;> rfl

theorem ended_closeBlock : s.closeBlock.ended = s.ended := by
  unfold closeBlock
  cases s.frames <;> rfl

/-- Only a brace that closes nothing ends the stylesheet. -/
theorem ended_advance :
    (s.advance context t).ended = (s.ended || (s.repair? t).any Event.isStop) := by
  cases hended : s.ended with
  | true =>
    rw [advance, if_pos hended]
    exact hended
  | false =>
    have hopen : ¬s.ended = true := ne_true_of_eq_false hended
    have hkept (repair : Option Event)
        (hrepair : ∀ e ∈ repair, ∃ position text, e = .keepingText position text) :
        repair.any Event.isStop = false := by
      cases repair with
      | none => rfl
      | some e =>
        obtain ⟨position, text, rfl⟩ := hrepair e rfl
        rfl
    have hread (kind : ErrorKind) : (if t.unclosed then
        some (Event.readingToEnd t.start kind) else none).any Event.isStop = false := by
      cases t.unclosed <;> rfl
    rw [advance, repair?, if_neg hopen, if_neg hopen, Bool.false_or]
    cases hkind : t.kind with
    | word | atWord | colon | other => exact (ended_hold s t).trans hended
    | openCurly => exact hended
    | string => exact ((ended_hold s t).trans hended).trans (hread _).symm
    | space =>
      dsimp only
      unfold readSpace
      cases s.statement <;> exact hended
    | comment =>
      dsimp only
      rw [hread]
      unfold addComment
      cases s.statement with
      | some statement => exact (ended_hold s t).trans hended
      | none => exact hended
    | semicolon =>
      cases s.statement with
      | none => exact hended
      | some statement =>
        have hrepair := hkept _ fun e he ↦ exists_of_mem_keeping? s statement .semicolon he
        dsimp only [Option.bind_some]
        rw [conclude_eq, hrepair]
        exact hended
    | closeCurly =>
      cases s.frames with
      | nil => rfl
      | cons frame frames =>
        have hrepair := hkept _ fun e he ↦ exists_of_mem_cutRepair? s .closeCurly he
        dsimp only
        rw [ended_closeBlock, cut_eq, hrepair]
        exact hended

/-! ## The end of the text -/

/-- Closes the blocks that are open, from the inside out. -/
def closeAll (s : State) : State :=
  s.frames.foldl (fun s _ ↦ s.closeBlock) s

/-- The state in which the text is at its end. -/
def conclusion (context : Context) (s : State) : State :=
  if s.ended then s else (s.cut context .endOfText).closeAll

/-- The repairs that the end of the text calls for. -/
def finalRepairs (s : State) : List Event :=
  if s.ended then []
  else (s.cutRepair? .endOfText).toList ++ s.frames.map fun frame ↦ .closingBlock frame.position

/-- A block that is still open is refused before the statement is looked at. -/
def finalRefusal? (s : State) : Option (ErrorKind × Position) :=
  if s.ended then none
  else
    match s.frames with
    | frame :: _ => some (.unclosedBlock, frame.position)
    | [] => (s.cutRepair? .endOfText).bind Event.refusal?

theorem conclusion_of_closed (hopen : s.ended = false) (hframes : s.frames = []) :
    s.conclusion context = s.cut context .endOfText := by
  have hcut : (s.cut context .endOfText).frames = [] := by rw [frames_cut, hframes]
  rw [conclusion, hopen, if_neg Bool.false_ne_true, closeAll, hcut]
  rfl

/-- The end of the text is refused for open blocks and for text that makes no node. -/
theorem finalRefusal?_eq_none_iff_closed (hopen : s.ended = false) :
    s.finalRefusal? = none ↔ s.frames = [] ∧ s.cutRepair? .endOfText = none := by
  rw [finalRefusal?, hopen, if_neg Bool.false_ne_true]
  cases hframes : s.frames with
  | cons frame frames => simp
  | nil =>
    cases hrepair : s.cutRepair? .endOfText with
    | none => simp
    | some e =>
      obtain ⟨position, text, rfl⟩ := exists_of_mem_cutRepair? s .endOfText hrepair
      simp [Event.refusal?]

theorem log_cut : (s.cut context ending).log = s.log :=
  log_of_withLog s (f := (cut context · ending)) fun s log ↦ cut_withLog context s ending log

theorem conclusion_withLog (log : List Event) :
    (s.withLog log).conclusion context = (s.conclusion context).withLog log := by
  have hended : (s.withLog log).ended = s.ended := rfl
  unfold conclusion closeAll
  rw [hended]
  cases s.ended with
  | true => rfl
  | false =>
    rw [cut_withLog]
    exact foldl_closeBlock_withLog _ log _

/-- The blocks are closed one by one, each with a note. -/
theorem foldl_noted_closeBlock (frames : List Frame) :
    frames.foldl (fun s frame ↦ (s.note (.closingBlock frame.position)).closeBlock) s =
      (frames.foldl (fun s _ ↦ s.closeBlock) s).withLog
        ((frames.map fun frame ↦ Event.closingBlock frame.position).reverse ++ s.log) := by
  induction frames generalizing s with
  | nil => rfl
  | cons frame frames ih =>
    have hclose : (s.note (.closingBlock frame.position)).closeBlock =
        s.closeBlock.withLog (.closingBlock frame.position :: s.log) :=
      closeBlock_withLog s _
    rw [List.foldl_cons, ih, hclose, foldl_closeBlock_withLog]
    simp

variable {context} in
theorem finish_lenient (h : context.strict = false) :
    s.finish context =
      .ok ((s.conclusion context).withLog (s.finalRepairs.reverse ++ s.log)) := by
  unfold finish conclusion finalRepairs
  cases s.ended with
  | true => rfl
  | false =>
    have hcut := repaired_lenient h (s.cut context .endOfText) (s.cutRepair? .endOfText)
    rw [log_cut] at hcut
    simp only [Bool.false_eq_true, if_false, h, cutStatement_eq, hcut]
    refine congrArg Except.ok ((foldl_noted_closeBlock _ _).trans ?_)
    have hframes : ((s.cut context .endOfText).withLog
        ((s.cutRepair? .endOfText).toList ++ s.log)).frames = s.frames :=
      frames_cut context s .endOfText
    have hreverse (repair : Option Event) : repair.toList.reverse = repair.toList := by
      cases repair <;> rfl
    rw [hframes, foldl_closeBlock_withLog, closeAll, frames_cut]
    simp [hreverse]

variable {context} in
theorem finish_strict (h : context.strict = true) :
    s.finish context =
      match s.finalRefusal? with
      | some (kind, position) => s.fail kind position
      | none => .ok (s.conclusion context) := by
  unfold finish conclusion finalRefusal?
  cases s.ended with
  | true => rfl
  | false =>
    simp only [Bool.false_eq_true, if_false, h, cutStatement_eq]
    cases hframes : s.frames with
    | cons frame frames => rfl
    | nil =>
      have hcut : (s.cut context .endOfText).frames = [] := by rw [frames_cut, hframes]
      rw [repaired_strict h _ _ fun e he ↦ isRepair_of_mem_cutRepair? s _ he]
      cases (s.cutRepair? .endOfText).bind Event.refusal? with
      | some refusal => rfl
      | none => simp [closeAll, hcut, bind, Except.bind, pure, Except.pure]

end Parse.State

end Stylesheet
