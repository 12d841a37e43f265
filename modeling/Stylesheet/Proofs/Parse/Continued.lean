import Stylesheet.Proofs.Arena.Append
import Stylesheet.Proofs.Parse.Bare
import Stylesheet.Proofs.Parse.Completed
import Stylesheet.Proofs.Token.Memory

/-!
# Parsing further on

A stylesheet can stand behind another one. Its nodes are then found further on in the text, and at
the top there are nodes in front of them; what they say is the same. A parse that goes on from there
does the same as one that starts anew (`State.advance_continued`), calls for the same repairs and
ends at the same tokens, each of them with its place further on (`State.repairsIn_continued`,
`State.fatalIn?_continued`).
-/

namespace Stylesheet

open Parse

namespace Event

def continued (start : Position) : Event → Event
  | readingToEnd position kind => readingToEnd (start.continued position) kind
  | unexpectedCloseBrace position => unexpectedCloseBrace (start.continued position)
  | closingBlock position => closingBlock (start.continued position)
  | keepingText position text => keepingText (start.continued position) text
  | e => e

theorem refusal?_continued (start : Position) (e : Event) :
    (e.continued start).refusal? = e.refusal?.map (Prod.map id start.continued) := by
  cases e <;> rfl

end Event

theorem Token.keeps_continued (offset : Nat) (start : Position) :
    Token.Keeps (Token.continued offset start) where
  kind _ := rfl
  kept _ := rfl

namespace Parse

variable (offset : Nat) (start : Position) (kids : List Node)

/-! ## States further on -/

/-- What stands in front in the container that is inside of these blocks. The latest comes first,
as always in a container that has not been closed. -/
def inFront (frames : List Frame) : List Node :=
  if frames.isEmpty then kids else []

def Scope.continued (scope : Scope) : Scope :=
  { scope with children := scope.children.map (Node.continued start) ++ kids }

def continuedFrames : List Frame → List Frame
  | [] => []
  | frame :: frames =>
    { source := frame.source.continued start
      head := frame.head
      outer := frame.outer.continued start (inFront kids frames) } :: continuedFrames frames

/-- The state as it is if its text starts at `start`, behind the nodes `kids`. -/
def State.continued (s : State) : State where
  scope := s.scope.continued start (inFront kids s.frames)
  frames := continuedFrames start kids s.frames
  statement := s.statement.map (Statement.map (Token.continued offset start))
  ended := s.ended
  log := s.log

namespace State

variable (context : Context) (s : State) (t : Token) (statement : Statement) (ending : Ending)

@[simp]
theorem accepts_continued : (s.continued offset start kids).accepts = s.accepts := by
  obtain ⟨scope, frames, statement, ended, log⟩ := s
  cases frames <;> rfl

theorem leaf?_continued :
    (s.continued offset start kids).leaf? (statement.map (Token.continued offset start)) ending =
      s.leaf? statement ending := by
  rw [leaf?_map (Token.keeps_continued offset start), leaf?, leaf?, accepts_continued]
  rfl

/-- Whatever text is kept in the container, it is the same. -/
theorem keepStatement_continued :
    (s.keepStatement statement ending).continued offset start kids =
      (s.continued offset start kids).keepStatement
        (statement.map (Token.continued offset start)) ending := by
  unfold keepStatement
  rw [accepts_continued, Statement.tokens_map, keptText_map (Token.keeps_continued offset start)]
  cases ending with
  | semicolon => cases s.accepts <;> rfl
  | closeCurly => rfl
  | endOfText => rfl

theorem conclude_continued :
    (s.conclude context statement ending).continued offset start kids =
      (s.continued offset start kids).conclude context
        (statement.map (Token.continued offset start)) ending := by
  unfold conclude
  rw [leaf?_continued]
  cases s.leaf? statement ending with
  | some leaf => 
    rfl
  | none => exact keepStatement_continued offset start kids s statement ending

theorem cut_continued :
    (s.cut context ending).continued offset start kids =
      (s.continued offset start kids).cut context ending := by
  obtain ⟨scope, frames, statement, ended, log⟩ := s
  cases statement with
  | none => rfl
  | some statement =>
    have hconclude := conclude_continued offset start kids context ⟨scope, frames, none, ended, log⟩
      statement.splitSpace.1 ending
    have hsplit := Statement.splitSpace_map (Token.keeps_continued offset start) statement
    have hkept := keptText_map (Token.keeps_continued offset start) statement.splitSpace.2
    simp only [cut, continued, Option.map_some, hsplit, hkept]
    exact congrArg (addText · _) hconclude

theorem hold_continued :
    (s.hold t).continued offset start kids =
      (s.continued offset start kids).hold (t.continued offset start) := by
  obtain ⟨scope, frames, statement, ended, log⟩ := s
  cases statement <;> rfl

theorem readSpace_continued :
    (s.readSpace t).continued offset start kids =
      (s.continued offset start kids).readSpace (t.continued offset start) := by
  obtain ⟨scope, frames, statement, ended, log⟩ := s
  cases statement <;> rfl

theorem addComment_continued :
    (s.addComment context t).continued offset start kids =
      (s.continued offset start kids).addComment context (t.continued offset start) := by
  obtain ⟨scope, frames, statement, ended, log⟩ := s
  cases statement <;> rfl

theorem blockHead_continued :
    (s.continued offset start kids).blockHead context (t.continued offset start) =
      ((s.blockHead context t).1.continued start, (s.blockHead context t).2) := by
  obtain ⟨scope, frames, statement, ended, log⟩ := s
  cases statement with
  | none => rfl
  | some statement =>
    have hg := Token.keeps_continued offset start
    simp only [blockHead, continued, Option.map_some, Statement.isAtRule_map hg]
    cases hrule : statement.isAtRule with
    | true =>
      have hprelude := statement.prelude_map hg scope.pending hrule
      simp only [if_true, Scope.continued, hprelude]
      rfl
    | false =>
      simp only [Bool.false_eq_true, if_false, Scope.continued, Statement.tokens_map,
        Selector.ofTokens_map hg]
      rfl

theorem openBlock_continued (source : Source) (head : Head) :
    (s.openBlock source head).continued offset start kids =
      (s.continued offset start kids).openBlock (source.continued start) head := rfl

theorem closeBlock_continued :
    s.closeBlock.continued offset start kids = (s.continued offset start kids).closeBlock := by
  obtain ⟨scope, frames, statement, ended, log⟩ := s
  cases frames with
  | nil => rfl
  | cons frame frames =>
    simp only [closeBlock, continued, continuedFrames, Scope.continued, Scope.add, List.map_cons,
      List.cons_append, Node.continued, Node.continuedAll_eq, inFront, List.isEmpty_cons,
      Bool.false_eq_true, if_false, List.append_nil, List.map_reverse]
    rfl

theorem frames_continued :
    (s.continued offset start kids).frames = continuedFrames start kids s.frames := rfl

theorem heldTokens_continued :
    (s.continued offset start kids).heldTokens =
      s.heldTokens.map (Token.continued offset start) := by
  obtain ⟨scope, frames, statement, ended, log⟩ := s
  cases statement with
  | none => rfl
  | some statement => exact Statement.tokens_map statement _

/-- A parse that goes on behind another stylesheet does what one does that starts anew. -/
theorem advance_continued :
    (s.advance context t).continued offset start kids =
      (s.continued offset start kids).advance context (t.continued offset start) := by
  have hkind : (t.continued offset start).kind = t.kind := rfl
  have hended : (s.continued offset start kids).ended = s.ended := rfl
  unfold advance
  rw [hended, hkind]
  by_cases hstopped : s.ended = true
  · rw [if_pos hstopped, if_pos hstopped]
    rfl
  rw [if_neg hstopped, if_neg hstopped]
  cases t.kind with
  | space => exact readSpace_continued offset start kids s t
  | comment => exact addComment_continued offset start kids context s t
  | openCurly =>
    dsimp only
    rw [openBlock_continued, blockHead_continued]
  | semicolon =>
    obtain ⟨scope, frames, statement, ended, log⟩ := s
    cases statement with
    | none => rfl
    | some statement =>
      exact conclude_continued offset start kids context ⟨scope, frames, none, ended, log⟩
        statement .semicolon
  | closeCurly =>
    cases hframes : s.frames with
    | nil =>
      have hkept : keptText (s.continued offset start kids).heldTokens = keptText s.heldTokens := by
        rw [heldTokens_continued, keptText_map (Token.keeps_continued offset start)]
      simp only [continued, hframes, continuedFrames] at hkept ⊢
      rw [hkept]
      rfl
    | cons frame frames =>
      simp only [closeBlock_continued, cut_continued, frames_continued, hframes, continuedFrames]
  | string | word | atWord | colon | other => exact hold_continued offset start kids s t

/-! ## Refusals and repairs further on -/

theorem fatal?_continued :
    (s.continued offset start kids).fatal? (t.continued offset start) =
      (s.fatal? t).map (Prod.map id start.continued) := by
  have hkind : (t.continued offset start).kind = t.kind := rfl
  have htext : (t.continued offset start).text = t.text := rfl
  have hended : (s.continued offset start kids).ended = s.ended := rfl
  have hstatement : (s.continued offset start kids).statement.isNone = s.statement.isNone :=
    Option.isNone_map
  rw [fatal?, fatal?, hkind, htext, hended, hstatement, accepts_continued]
  split
  · rfl
  · split
    · rfl
    · split <;> rfl

theorem keeping?_continued :
    (s.continued offset start kids).keeping? (statement.map (Token.continued offset start)) ending =
      (s.keeping? statement ending).map (Event.continued start) := by
  rw [keeping?, keeping?, leaf?_continued, Statement.tokens_map,
    keptText_map (Token.keeps_continued offset start)]
  cases s.leaf? statement ending <;> rfl

theorem cutRepair?_continued :
    (s.continued offset start kids).cutRepair? ending =
      (s.cutRepair? ending).map (Event.continued start) := by
  obtain ⟨scope, frames, statement, ended, log⟩ := s
  cases statement with
  | none => rfl
  | some statement =>
    have hsplit := Statement.splitSpace_map (Token.keeps_continued offset start) statement
    have hkeeping := keeping?_continued offset start kids
      ⟨scope, frames, some statement, ended, log⟩ statement.splitSpace.1 ending
    simp only [cutRepair?, continued, Option.map_some, Option.bind_some, hsplit]
    exact hkeeping

theorem repair?_continued :
    (s.continued offset start kids).repair? (t.continued offset start) =
      (s.repair? t).map (Event.continued start) := by
  have hkind : (t.continued offset start).kind = t.kind := rfl
  have hended : (s.continued offset start kids).ended = s.ended := rfl
  unfold repair?
  rw [hended, hkind]
  by_cases hstopped : s.ended = true
  · rw [if_pos hstopped, if_pos hstopped]
    rfl
  rw [if_neg hstopped, if_neg hstopped]
  cases t.kind with
  | string | comment =>
    have hunclosed : (t.continued offset start).unclosed = t.unclosed := rfl
    dsimp only
    rw [hunclosed]
    cases t.unclosed <;> rfl
  | semicolon =>
    obtain ⟨scope, frames, statement, ended, log⟩ := s
    cases statement with
    | none => rfl
    | some statement =>
      exact keeping?_continued offset start kids ⟨scope, frames, some statement, ended, log⟩
        statement .semicolon
  | closeCurly =>
    dsimp only
    rw [frames_continued]
    cases hframes : s.frames with
    | nil => rfl
    | cons frame frames => exact cutRepair?_continued offset start kids s .closeCurly
  | space | openCurly | word | atWord | colon | other => rfl

variable (ts : List Token)

theorem foldl_advance_continued :
    (ts.foldl (advance context) s).continued offset start kids =
      (ts.map (Token.continued offset start)).foldl (advance context)
        (s.continued offset start kids) := by
  induction ts generalizing s with
  | nil => rfl
  | cons t ts ih => rw [List.foldl_cons, ih, advance_continued, List.map_cons, List.foldl_cons]

theorem fatalIn?_continued :
    (s.continued offset start kids).fatalIn? context (ts.map (Token.continued offset start)) =
      (s.fatalIn? context ts).map (Prod.map id start.continued) := by
  induction ts generalizing s with
  | nil => rfl
  | cons t ts ih =>
    rw [List.map_cons, fatalIn?, fatalIn?, fatal?_continued, ← advance_continued, ih,
      Option.map_or]

theorem repairsIn_continued :
    (s.continued offset start kids).repairsIn context (ts.map (Token.continued offset start)) =
      (s.repairsIn context ts).map (Event.continued start) := by
  induction ts generalizing s with
  | nil => rfl
  | cons t ts ih =>
    rw [List.map_cons, repairsIn, repairsIn, fatal?_continued, repair?_continued,
      ← advance_continued, ih, Option.isSome_map]
    cases (s.fatal? t).isSome with
    | true => rfl
    | false =>
      rw [if_neg Bool.false_ne_true, if_neg Bool.false_ne_true, List.map_append]
      cases s.repair? t <;> rfl

theorem finalRefusal?_continued :
    (s.continued offset start kids).finalRefusal? =
      s.finalRefusal?.map (Prod.map id start.continued) := by
  have hended : (s.continued offset start kids).ended = s.ended := rfl
  unfold finalRefusal?
  rw [hended, frames_continued, cutRepair?_continued]
  cases s.ended with
  | true => rfl
  | false =>
    cases s.frames with
    | cons frame frames => rfl
    | nil =>
      dsimp only [continuedFrames]
      cases s.cutRepair? .endOfText with
      | none => rfl
      | some e => exact Event.refusal?_continued start e

theorem closeAll_continued (s : State) :
    s.closeAll.continued offset start kids = (s.continued offset start kids).closeAll := by
  cases hframes : s.frames with
  | nil =>
    have hnil : (s.continued offset start kids).frames = [] := by
      rw [frames_continued, hframes]
      rfl
    rw [closeAll_of_nil hframes, closeAll_of_nil hnil]
  | cons frame frames =>
    have hcons : (s.continued offset start kids).frames =
        continuedFrames start kids (frame :: frames) := by rw [frames_continued, hframes]
    rw [closeAll_of_cons hframes, closeAll_of_cons hcons, ← closeBlock_continued]
    exact closeAll_continued s.closeBlock
termination_by s.frames.length
decreasing_by
  rw [frames_closeBlock, hframes]
  exact Nat.lt_succ_self _

theorem conclusion_continued :
    (s.conclusion context).continued offset start kids =
      (s.continued offset start kids).conclusion context := by
  have hended : (s.continued offset start kids).ended = s.ended := rfl
  unfold conclusion
  rw [hended]
  cases s.ended with
  | true => rfl
  | false =>
    simp only [Bool.false_eq_true, if_false]
    rw [closeAll_continued, cut_continued]

end State

end Parse

end Stylesheet
