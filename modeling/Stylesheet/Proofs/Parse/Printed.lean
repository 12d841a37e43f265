import Stylesheet.Proofs.Node.Siblings
import Stylesheet.Proofs.Parse.Advance

/-!
# The text of a parse that is under way

A state of the parse has a text: the containers that are open print what they hold so far, from the
outside in, and the statement that has been started stands behind. A statement or a block that ends
adds its text and changes nothing in front of it (`State.text_scope_conclude`,
`State.text_closeBlock`).

What makes this go through is that an open container is settled: the last statement in it has its
semicolon, so another node can follow without one being put in. A statement that ends without a
semicolon ends with its block, and a block needs none.
-/

namespace Stylesheet

namespace Parse

namespace Scope

/-- What the container prints so far. -/
def text (scope : Scope) : String :=
  Node.textAll scope.semicolon scope.children.reverse ++ scope.pending

/-- Another node can follow and leaves what is printed so far as it is. -/
def Settled (scope : Scope) : Prop :=
  Node.textAll scope.semicolon scope.children.reverse = Node.textAll true scope.children.reverse

variable {scope : Scope}

theorem text_addText (scope : Scope) (text : String) :
    (scope.addText text).text = scope.text ++ text :=
  String.append_assoc.symm

theorem settled_of_semicolon (h : scope.semicolon = true) : scope.Settled := by
  rw [Settled, h]

theorem Settled.text_semicolon (h : scope.Settled) :
    { scope with semicolon := true : Scope }.text = scope.text :=
  congrArg (· ++ scope.pending) h.symm

theorem text_add_comment (scope : Scope) {c : Node} {written : String} (hc : c.isComment = true)
    (h : c.text = scope.pending ++ written) : (scope.add c).text = scope.text ++ written := by
  unfold text add
  rw [List.reverse_cons, Node.textAll_append_comment scope.semicolon _ hc, h]
  simp only [String.append_assoc, String.append_empty]

theorem Settled.add_comment (hs : scope.Settled) {c : Node} (hc : c.isComment = true) :
    (scope.add c).Settled := by
  unfold Settled add at *
  rw [List.reverse_cons, Node.textAll_append_comment _ _ hc, Node.textAll_append_comment _ _ hc, hs]

theorem Settled.text_add (hs : scope.Settled) {n : Node} {written : String}
    (hn : n.isComment = false) (h : n.text = scope.pending ++ written) (semicolon : Bool) :
    { scope.add n with semicolon : Scope }.text =
      scope.text ++ written ++ if n.isStatement && semicolon then ";" else "" := by
  unfold text add
  rw [List.reverse_cons, Node.textAll_append_plain semicolon _ hn, h, ← hs]
  simp only [String.append_assoc, String.append_empty]

end Scope

/-- What stands in front of the block in its container, and its head. -/
def Frame.text (frame : Frame) : String :=
  Node.textAll true frame.outer.children.reverse ++ frame.head.addTo "" ++ "\x7b"

/-- The outermost block comes first in the text. -/
def framesText : List Frame → String
  | [] => ""
  | frame :: frames => framesText frames ++ frame.text

namespace State

def text (s : State) : String :=
  framesText s.frames ++ s.scope.text ++ keptText s.heldTokens

/-- What every state of a parse satisfies before the end of the text is read. -/
structure Sound (s : State) : Prop where
  settled : s.scope.Settled
  shaped : ∀ statement, s.statement = some statement → statement.first.Shaped
  ended : s.ended = true → s.frames = [] ∧ s.statement = none

variable {context : Context} {s : State} {t : Token}

/-! ## Statements and blocks -/

/-- The text that a statement adds to its container, its semicolon included. -/
def endedText (statement : Statement) (ending : Ending) : String :=
  keptText statement.tokens ++ if ending = .semicolon then ";" else ""

variable {statement : Statement} {ending : Ending} {leaf : Leaf}

theorem addTo_leaf? (h : s.leaf? statement ending = some leaf) (hfirst : statement.first.Shaped) :
    leaf.addTo "" = s.scope.pending ++ keptText statement.tokens := by
  unfold leaf? at h
  split at h
  · split at h
    · next d hd =>
      obtain rfl := Option.some.inj h
      exact Declaration.addTo_ofTokens? hd
    · split at h
      · obtain rfl := Option.some.inj h
        exact Declaration.addTo_ofProperty s.scope.pending statement.tokens
      · contradiction
  · split at h
    · next hrule =>
      obtain rfl := Option.some.inj h
      exact Prelude.addTo_ofTokens _ _ hfirst (eq_of_beq hrule)
    · contradiction

theorem isComment_leaf? (h : s.leaf? statement ending = some leaf) : leaf.isComment = false := by
  unfold leaf? at h
  split at h
  · split at h
    · obtain rfl := Option.some.inj h
      rfl
    · split at h
      · obtain rfl := Option.some.inj h
        rfl
      · contradiction
  · split at h
    · obtain rfl := Option.some.inj h
      rfl
    · contradiction

/-- A statement that ends adds its text to the container, whatever becomes of it. -/
theorem text_scope_conclude (context : Context) (ending : Ending) (hs : s.scope.Settled)
    (hfirst : statement.first.Shaped) :
    (s.conclude context statement ending).scope.text =
      s.scope.text ++ endedText statement ending := by
  unfold conclude
  cases hleaf : s.leaf? statement ending with
  | some leaf =>
    have hplain : leaf.isComment = false := isComment_leaf? hleaf
    have htext := addTo_leaf? hleaf hfirst
    rw [← Node.text_leaf (context.source statement.first.start)] at htext
    have hadd := hs.text_add (n := .leaf (context.source statement.first.start) leaf) hplain htext
      (ending == .semicolon)
    rw [Node.isStatement, Leaf.isStatement, hplain, Bool.not_false, Bool.true_and] at hadd
    rw [endedText, ← String.append_assoc]
    simp only [beq_iff_eq] at hadd
    exact hadd
  | none =>
    have hkept := Scope.text_addText s.scope (keptText statement.tokens)
    have hended := Scope.text_addText (s.scope.addText (keptText statement.tokens)) ";"
    have hsettled : ((s.scope.addText (keptText statement.tokens)).addText ";").Settled := hs
    rw [hkept, String.append_assoc] at hended
    dsimp only
    unfold keepStatement endedText
    by_cases hending : ending = .semicolon
    · rw [if_pos hending, if_pos hending]
      cases s.accepts with
      | declarations => exact hsettled.text_semicolon.trans hended
      | rules => exact hended
    · rw [if_neg hending, if_neg hending, String.append_empty]
      exact hkept

theorem settled_conclude (context : Context) (statement : Statement) (hs : s.scope.Settled) :
    (s.conclude context statement .semicolon).scope.Settled := by
  unfold conclude
  cases s.leaf? statement .semicolon with
  | some leaf => exact Scope.settled_of_semicolon rfl
  | none =>
    dsimp only
    unfold keepStatement
    rw [if_pos rfl]
    cases s.accepts with
    | declarations => exact Scope.settled_of_semicolon rfl
    | rules => exact hs

theorem text_scope_cut (context : Context) (hs : s.Sound) (hending : ending ≠ .semicolon) :
    (s.cut context ending).scope.text = s.scope.text ++ keptText s.heldTokens := by
  unfold cut
  cases hstatement : s.statement with
  | none => rw [heldTokens_none hstatement, keptText_nil, String.append_empty]
  | some statement =>
    have hfirst : statement.splitSpace.1.first.Shaped := by
      rw [Statement.first_splitSpace]
      exact hs.shaped statement hstatement
    have hsettled : { s with statement := none : State }.scope.Settled := hs.settled
    have hconclude := text_scope_conclude context ending hsettled hfirst
    rw [endedText, if_neg hending, String.append_empty] at hconclude
    rw [heldTokens_some hstatement, ← Statement.tokens_splitSpace statement, keptText_append,
      ← String.append_assoc, ← hconclude]
    exact Scope.text_addText _ _

theorem text_openBlock (source : Source) {head : Head} (hs : s.scope.Settled)
    (h : head.addTo "" = s.scope.pending ++ keptText s.heldTokens) :
    (s.openBlock source head).text = s.text ++ "\x7b" := by
  have hframe : (Frame.mk source head { s.scope with pending := "", semicolon := false }).text =
      s.scope.text ++ keptText s.heldTokens ++ "\x7b" := by
    unfold Frame.text Scope.text
    rw [h, hs]
    simp only [String.append_assoc]
  have hempty : ({} : Scope).text = "" := rfl
  have hnone : keptText (s.openBlock source head).heldTokens = "" := rfl
  unfold text
  rw [hnone]
  simp only [openBlock, framesText, hframe, hempty, String.append_empty, String.append_assoc]

theorem text_closeBlock {frame : Frame} {frames : List Frame} (h : s.frames = frame :: frames)
    (hnone : s.statement = none) :
    s.closeBlock.text = s.text ++ "\x7d" ∧ s.closeBlock.scope.Settled := by
  obtain ⟨source, head, outer⟩ := frame
  let block := Node.block source head s.scope.children.reverse s.scope.pending s.scope.semicolon
  have hclose : s.closeBlock = { s with scope := outer.add block, frames } := by
    unfold closeBlock
    rw [h]
  have hall (semicolon : Bool) :
      Node.textAll semicolon (outer.add block).children.reverse =
        Node.textAll true outer.children.reverse ++ block.text := by
    unfold Scope.add
    rw [List.reverse_cons, Node.textAll_append_plain semicolon _ rfl]
    exact String.append_empty
  have hblock : (outer.add block).text =
      (Frame.mk source head outer).text ++ s.scope.text ++ "\x7d" := by
    unfold Scope.text Frame.text
    rw [hall, Node.text_block]
    simp only [Scope.add, String.append_empty, String.append_assoc]
  rw [hclose]
  constructor
  · unfold text
    rw [h]
    simp [heldTokens, hnone, hblock, framesText, String.append_assoc]
  · unfold Scope.Settled
    rw [hall, hall]

end State

end Parse

end Stylesheet
