import Stylesheet.Proofs.Node.Places
import Stylesheet.Proofs.Parse.Completed

/-!
# Nodes as they are made

A node is made with its place: a comment when it is read, another leaf when its statement ends, and
a block when it is opened. It comes behind all nodes made so far, and what is closed later changes
nothing about that (`State.grows_advance`, `State.places_closeBlock`). So nodes are made in the
order in which the tree lists them.

The tokens that are part of no node yet belong to the statement that has been started, and the next
node starts with the first of them.
-/

namespace Stylesheet

/-! ## Nodes that suit their container -/

/-- What a body may hold. -/
def BodyKind.kinds : BodyKind → List NodeKind
  | rules => [.rule, .atRule, .comment]
  | declarations => [.declaration, .comment]

theorem BodyKind.comment_mem_kinds (within : BodyKind) : .comment ∈ within.kinds := by
  cases within <;> decide

/-- An at-rule has a name, which decides what its block may hold. -/
def Opening.Named : Opening → Prop
  | leaf (.statement p) => p.name ≠ ""
  | block (.atRule p body) => p.name ≠ "" ∧ body = bodyKind p.name
  | _ => True

structure Opening.Suits (opening : Opening) (within : BodyKind) : Prop where
  kind : opening.kind ∈ within.kinds
  named : opening.Named

/-- The at sign is not all there is of the token. -/
def Token.Named (t : Token) : Prop :=
  t.kind = .atWord → t.text ≠ "@"

theorem Prelude.name_ofTokens (before : String) (ts : List Token) {t : Token} (h : t.Shaped)
    (hkind : t.kind = .atWord) (hnamed : t.Named) :
    (Prelude.ofTokens before t ts).name ≠ "" := by
  obtain ⟨name, hname⟩ := h.atWord hkind
  have hne : t.text ≠ "@" := hnamed hkind
  have hofTokens : (Prelude.ofTokens before t ts).name = String.ofList name := by
    simp [Prelude.ofTokens, hname]
  have hsign : "@" = String.ofList ['@'] := rfl
  have hempty : "" = String.ofList [] := rfl
  rw [hname, hsign, ne_eq, String.ofList_inj] at hne
  rw [hofTokens, hempty, ne_eq, String.ofList_inj]
  exact fun hnil ↦ hne (congrArg (List.cons '@') hnil)

theorem Declaration.before_ofTokens? {before : String} {ts : List Token} {d : Declaration}
    (h : Declaration.ofTokens? before ts = some d) : d.before = before := by
  unfold Declaration.ofTokens? at h
  split at h
  · contradiction
  · rw [← Option.some.inj h]

namespace Parse

/-! ## The places of a parse that is under way -/

/-- No place depends on whether the last statement has its semicolon. -/
def Scope.Steady (scope : Scope) : Prop :=
  ∀ front within, Node.placesAll front within scope.semicolon scope.children.reverse =
    Node.placesAll front within true scope.children.reverse

theorem Scope.Settled.steady {scope : Scope} (h : scope.Settled) : scope.Steady :=
  fun front within ↦ Node.placesAll_of_textAll_eq front within scope.semicolon h

/-- Any node but a comment asks for the semicolons in front of it. -/
theorem Scope.placesAll_add (scope : Scope) {n : Node} (h : n.isComment = false) (front : String)
    (within : BodyKind) (semicolon : Bool) :
    Node.placesAll front within semicolon (scope.add n).children.reverse =
      Node.placesAll front within true scope.children.reverse ++
        n.places (front ++ Node.textAll true scope.children.reverse) within := by
  unfold Scope.add
  rw [List.reverse_cons, Node.placesAll_append_plain _ _ _ _ h]

theorem Scope.steady_add (scope : Scope) {n : Node} (h : n.isComment = false) (semicolon : Bool) :
    { scope.add n with semicolon : Scope }.Steady := by
  intro front within
  apply (scope.placesAll_add h front within semicolon).trans
  exact (scope.placesAll_add h front within true).symm

/-- What the innermost of the blocks may hold. -/
def framesBody : List Frame → BodyKind
  | [] => .rules
  | frame :: _ => frame.head.body

/-- The places of the blocks that are open and of the nodes in front of them. -/
def framesPlaces : List Frame → List Place
  | [] => []
  | frame :: frames =>
    let front := framesText frames
    let within := framesBody frames
    let siblings := frame.outer.children.reverse
    framesPlaces frames ++ (Node.placesAll front within true siblings ++
      [⟨front ++ Node.textAll true siblings, within, frame.source, .block frame.head⟩])

namespace State

def places (s : State) : List Place :=
  framesPlaces s.frames ++
    Node.placesAll (framesText s.frames) s.accepts true s.scope.children.reverse

/-- What is printed in front of the statement that has been started. -/
def printed (s : State) : String :=
  framesText s.frames ++ s.scope.text

theorem text_eq_printed (s : State) : s.text = s.printed ++ keptText s.heldTokens := rfl

/-- The place of the node that is made next. -/
def place (s : State) (source : Source) (opening : Opening) : Place where
  front := framesText s.frames ++ Node.textAll true s.scope.children.reverse
  within := s.accepts
  source
  opening

variable {context : Context} {s : State} {t : Token} {statement : Statement} {ending : Ending}
variable {leaf : Leaf}

theorem lead_place (hs : s.scope.Settled) (source : Source) {opening : Opening}
    (h : opening.before = s.scope.pending) : (s.place source opening).lead = s.printed := by
  rw [Place.lead, printed, Scope.text, hs, place, h, String.append_assoc]

theorem places_addLeaf (s : State) (source : Source) (leaf : Leaf) :
    (s.addLeaf source leaf).places = s.places ++ [s.place source (.leaf leaf)] := by
  let front := framesText s.frames
  have hadd : Node.placesAll front s.accepts true
      (s.scope.add (.leaf source leaf)).children.reverse =
        Node.placesAll front s.accepts true s.scope.children.reverse ++
          (Node.leaf source leaf).places (front ++ Node.textAll true s.scope.children.reverse)
            s.accepts := by
    cases hcomment : (Node.leaf source leaf).isComment with
    | true =>
      unfold Scope.add
      rw [List.reverse_cons, Node.placesAll_append_comment _ _ _ _ hcomment]
    | false => exact s.scope.placesAll_add hcomment front s.accepts true
  calc (s.addLeaf source leaf).places
    _ = framesPlaces s.frames ++ Node.placesAll front s.accepts true
        (s.scope.add (.leaf source leaf)).children.reverse := rfl
    _ = s.places ++ [s.place source (.leaf leaf)] := by
      rw [hadd, Node.places_leaf, ← List.append_assoc]
      rfl

theorem places_openBlock (s : State) (source : Source) (head : Head) :
    (s.openBlock source head).places = s.places ++ [s.place source (.block head)] := by
  have hempty : Node.placesAll (framesText (s.openBlock source head).frames)
      (s.openBlock source head).accepts true ({} : Scope).children.reverse = [] :=
    Node.placesAll_nil _ _ _
  rw [places, places, List.append_assoc]
  exact (congrArg (_ ++ ·) hempty).trans (List.append_nil _)

/-- A block that is closed has its place and its nodes have theirs. -/
theorem places_closeBlock (h : s.scope.Steady) :
    s.closeBlock.places = s.places ∧ s.closeBlock.scope.Steady := by
  cases hframes : s.frames with
  | nil =>
    have hclose : s.closeBlock = s := by
      rw [closeBlock, hframes]
    rw [hclose]
    exact ⟨rfl, h⟩
  | cons frame frames =>
    obtain ⟨source, head, outer⟩ := frame
    let block := Node.block source head s.scope.children.reverse s.scope.pending s.scope.semicolon
    have hclose : s.closeBlock = { s with scope := outer.add block, frames } := by
      unfold closeBlock
      rw [hframes]
    have haccepts : s.accepts = head.body := by
      rw [accepts, hframes]
    have hbefore : ({ s with scope := outer.add block, frames } : State).accepts =
        framesBody frames := rfl
    have hfront : framesText (⟨source, head, outer⟩ :: frames) =
        framesText frames ++ Node.textAll true outer.children.reverse ++ head.addTo "" ++
          "\x7b" := by
      simp only [framesText, Frame.text, String.append_assoc]
    rw [hclose]
    refine ⟨?_, outer.steady_add rfl outer.semicolon⟩
    rw [places, places, outer.placesAll_add rfl, Node.places_block, h, hframes, haccepts, hfront,
      hbefore, framesPlaces]
    simp only [List.append_assoc, List.cons_append, List.nil_append]

theorem places_closeAll {frames : List Frame} (hframes : s.frames = frames)
    (h : s.scope.Steady) : s.closeAll.places = s.places ∧ s.closeAll.scope.Steady := by
  induction frames generalizing s with
  | nil =>
    rw [closeAll_of_nil hframes]
    exact ⟨rfl, h⟩
  | cons frame frames ih =>
    obtain ⟨hplaces, hsteady⟩ := places_closeBlock h
    have hrest : s.closeBlock.frames = frames := by rw [frames_closeBlock, hframes, List.tail_cons]
    rw [closeAll_of_cons hframes, ← hplaces]
    exact ih hrest hsteady

/-! ## What is made next -/

/-- The first token that is part of no node, if `t` is the next to be read. -/
def first (s : State) (t : Token) : Token :=
  (s.statement.map Statement.first).getD t

theorem first_none (h : s.statement = none) (t : Token) : s.first t = t := by
  rw [first, h]
  rfl

theorem first_some (h : s.statement = some statement) (t : Token) :
    s.first t = statement.first := by
  rw [first, h]
  rfl

/-- The node stands behind all that has been printed, and `first` is its first token. -/
structure Makes (context : Context) (s : State) (first : Token) (place : Place) : Prop where
  lead : place.lead = s.printed
  source : place.source = context.source first.start
  suits : place.opening.Suits place.within

theorem leaf?_eq_some (h : s.leaf? statement ending = some leaf) :
    (s.accepts = .declarations ∧ ∃ d, leaf = .declaration d ∧ d.before = s.scope.pending) ∨
      s.accepts = .rules ∧ statement.first.kind = .atWord ∧
        leaf = .statement
          (Prelude.ofTokens s.scope.pending statement.first statement.more.reverse) := by
  unfold leaf? at h
  cases haccepts : s.accepts with
  | declarations =>
    simp only [haccepts] at h
    split at h
    · next d hd =>
      exact .inl ⟨rfl, d, (Option.some.inj h).symm, Declaration.before_ofTokens? hd⟩
    · split at h
      · exact .inl ⟨rfl, _, (Option.some.inj h).symm, rfl⟩
      · contradiction
  | rules =>
    simp only [haccepts] at h
    split at h
    · next hrule =>
      exact .inr ⟨rfl, eq_of_beq hrule, (Option.some.inj h).symm⟩
    · contradiction

theorem makes_leaf (context : Context) (hs : s.scope.Settled) (hfirst : statement.first.Shaped)
    (hnamed : statement.first.Named) (h : s.leaf? statement ending = some leaf) :
    s.Makes context statement.first
      (s.place (context.source statement.first.start) (.leaf leaf)) := by
  obtain ⟨haccepts, d, rfl, hbefore⟩ | ⟨haccepts, hkind, rfl⟩ := leaf?_eq_some h
  · refine ⟨lead_place hs _ hbefore, rfl, ?_, trivial⟩
    rw [place, haccepts]
    exact List.mem_cons_self
  · refine ⟨lead_place hs _ rfl, rfl, ?_, Prelude.name_ofTokens _ _ hfirst hkind hnamed⟩
    rw [place, haccepts]
    exact List.mem_cons_of_mem _ List.mem_cons_self

theorem makes_comment (context : Context) (hs : s.scope.Settled) (t : Token) :
    s.Makes context t
      (s.place (context.source t.start) (.leaf (.comment (Comment.ofToken s.scope.pending t)))) :=
  ⟨lead_place hs _ rfl, rfl, BodyKind.comment_mem_kinds s.accepts, trivial⟩

theorem makes_block (context : Context) (hs : s.scope.Settled) (haccepts : s.accepts = .rules)
    (hfirst : (s.first t).Shaped) (hnamed : (s.first t).Named) :
    s.Makes context (s.first t)
      (s.place (s.blockHead context t).1 (.block (s.blockHead context t).2)) := by
  unfold blockHead
  cases hstatement : s.statement with
  | none =>
    rw [first_none hstatement]
    refine ⟨lead_place hs _ rfl, rfl, ?_, trivial⟩
    rw [place, haccepts]
    exact List.mem_cons_self
  | some statement =>
    rw [first_some hstatement] at hfirst hnamed ⊢
    dsimp only
    split
    · next hrule =>
      have hkind : statement.first.kind = .atWord := eq_of_beq hrule
      refine ⟨lead_place hs _ rfl, rfl, ?_, Prelude.name_ofTokens _ _ hfirst hkind hnamed, rfl⟩
      rw [place, haccepts]
      exact List.mem_cons_of_mem _ List.mem_cons_self
    · refine ⟨lead_place hs _ rfl, rfl, ?_, trivial⟩
      rw [place, haccepts]
      exact List.mem_cons_self

/-! ## Statements that end -/

theorem places_conclude (context : Context) (statement : Statement) (ending : Ending)
    (hs : s.scope.Settled) :
    (s.conclude context statement ending).places = s.places ++
        ((s.leaf? statement ending).map fun leaf ↦
          s.place (context.source statement.first.start) (.leaf leaf)).toList ∧
      (s.conclude context statement ending).scope.Steady := by
  unfold conclude
  cases hleaf : s.leaf? statement ending with
  | some leaf =>
    have hplain : (Node.leaf (context.source statement.first.start) leaf).isComment = false :=
      isComment_leaf? hleaf
    exact ⟨places_addLeaf s _ leaf, s.scope.steady_add hplain (ending == .semicolon)⟩
  | none =>
    rw [Option.map_none, Option.toList_none, List.append_nil]
    dsimp only
    unfold keepStatement
    cases ending with
    | closeCurly | endOfText => exact ⟨rfl, hs.steady⟩
    | semicolon =>
      cases s.accepts with
      | rules => exact ⟨rfl, hs.steady⟩
      | declarations => exact ⟨rfl, fun _ _ ↦ rfl⟩

/-- A statement that ends with its container makes a node or leaves its text. -/
theorem places_cut (context : Context) (ending : Ending) (hs : s.Sound)
    (hnamed : ∀ statement, s.statement = some statement → statement.first.Named) :
    ∃ made : Option Place, (s.cut context ending).places = s.places ++ made.toList ∧
      (s.cut context ending).scope.Steady ∧
      ∀ place ∈ made, ∃ statement, s.statement = some statement ∧
        s.Makes context statement.first place := by
  unfold cut
  cases hstatement : s.statement with
  | none => exact ⟨none, (List.append_nil _).symm, hs.settled.steady, fun _ h ↦ nomatch h⟩
  | some statement =>
    have hsettled : { s with statement := none : State }.scope.Settled := hs.settled
    obtain ⟨hplaces, hsteady⟩ :=
      places_conclude context statement.splitSpace.1 ending hsettled
    refine ⟨_, hplaces, hsteady, ?_⟩
    intro place hplace
    obtain ⟨leaf, hleaf, rfl⟩ := Option.map_eq_some_iff.mp hplace
    have hfirst := statement.first_splitSpace
    refine ⟨statement, rfl, ?_⟩
    have hmakes := makes_leaf context hsettled (by rw [hfirst]; exact hs.shaped _ hstatement)
      (by rw [hfirst]; exact hnamed _ hstatement) hleaf
    rw [hfirst] at hmakes ⊢
    exact ⟨hmakes.lead, hmakes.source, hmakes.suits⟩

/-! ## One step -/

/-- One node is made or none, from the tokens that are part of no node. They stay what they are if
the statement goes on. -/
structure Grows (context : Context) (s s' : State) (first : Token) (made : Option Place) :
    Prop where
  places : s'.places = s.places ++ made.toList
  makes : ∀ place ∈ made, s.Makes context first place
  holds : ∀ statement, s'.statement = some statement →
    made = none ∧ statement.first = first ∧ s'.printed = s.printed

theorem Grows.mem_places {s' : State} {first : Token} {made : Option Place} {place : Place}
    (h : s.Grows context s' first made) (hplace : place ∈ s'.places) :
    place ∈ s.places ∨ s.Makes context first place := by
  rw [h.places, List.mem_append, Option.mem_toList] at hplace
  exact hplace.imp_right (h.makes place)

theorem grows_none {s' : State} {first : Token} (h : s'.places = s.places)
    (hholds : ∀ statement, s'.statement = some statement →
      statement.first = first ∧ s'.printed = s.printed) : s.Grows context s' first none where
  places := h.trans (List.append_nil _).symm
  makes _ h := nomatch h
  holds statement hstatement := ⟨rfl, hholds statement hstatement⟩

theorem grows_hold (context : Context) (s : State) (t : Token) :
    s.Grows context (s.hold t) (s.first t) none := by
  obtain ⟨scope, frames, statement, ended, log⟩ := s
  cases statement with
  | none =>
    refine grows_none rfl ?_
    rintro _ ⟨⟩
    exact ⟨rfl, rfl⟩
  | some statement =>
    refine grows_none rfl ?_
    rintro _ ⟨⟩
    exact ⟨rfl, rfl⟩

theorem grows_addText (context : Context) (h : s.statement = none) (text : String) (t : Token) :
    s.Grows context (s.addText text) t none :=
  grows_none rfl fun _ hstatement ↦ nomatch h.symm.trans hstatement

theorem grows_readSpace (context : Context) (s : State) (t : Token) :
    s.Grows context (s.readSpace t) (s.first t) none := by
  have hhold := grows_hold context s t
  unfold readSpace
  unfold hold at hhold
  cases hstatement : s.statement with
  | none => exact grows_addText context hstatement t.text _
  | some statement =>
    rw [hstatement] at hhold
    exact hhold

theorem grows_addComment (context : Context) (hs : s.Sound) (t : Token) :
    ∃ made, s.Grows context (s.addComment context t) (s.first t) made := by
  unfold addComment
  cases hstatement : s.statement with
  | some statement => exact ⟨none, grows_hold context s t⟩
  | none =>
    refine ⟨some _, places_addLeaf s _ _, ?_, fun _ h ↦ nomatch hstatement.symm.trans h⟩
    rintro _ ⟨⟩
    rw [first_none hstatement]
    exact makes_comment context hs.settled t

theorem grows_openBlock (context : Context) (hs : s.Sound) (haccepts : s.accepts = .rules)
    (hfirst : (s.first t).Shaped) (hnamed : (s.first t).Named) :
    ∃ made, s.Grows context (s.openBlock (s.blockHead context t).1 (s.blockHead context t).2)
      (s.first t) made := by
  refine ⟨some _, places_openBlock s _ _, ?_, fun _ h ↦ nomatch h⟩
  rintro _ ⟨⟩
  exact makes_block context hs.settled haccepts hfirst hnamed

theorem grows_conclude (context : Context) (hs : s.Sound)
    (hstatement : s.statement = some statement) (hnamed : statement.first.Named) :
    ∃ made, s.Grows context ({ s with statement := none }.conclude context statement .semicolon)
      statement.first made := by
  have hsettled : { s with statement := none : State }.scope.Settled := hs.settled
  have hfirst : statement.first.Shaped := hs.shaped statement hstatement
  obtain ⟨hplaces, -⟩ := places_conclude context statement .semicolon hsettled
  refine ⟨_, hplaces, ?_, ?_⟩
  · intro place hplace
    obtain ⟨leaf, hleaf, rfl⟩ := Option.map_eq_some_iff.mp hplace
    obtain ⟨hlead, hsource, hsuits⟩ := makes_leaf context hsettled hfirst hnamed hleaf
    exact ⟨hlead, hsource, hsuits⟩
  · rw [conclude_eq]
    exact fun _ h ↦ nomatch h

theorem grows_closeBlock (context : Context) (hs : s.Sound) (hnamed : (s.first t).Named) :
    ∃ made, s.Grows context (s.cut context .closeCurly).closeBlock (s.first t) made := by
  have hstarts (statement : Statement) (h : s.statement = some statement) :
      statement.first.Named := by
    rwa [first_some h] at hnamed
  have hnone : (s.cut context .closeCurly).closeBlock.statement = none := by
    rw [statement_closeBlock, cut_eq]
  obtain ⟨made, hplaces, hsteady, hmakes⟩ := places_cut context .closeCurly hs hstarts
  refine ⟨made, (places_closeBlock hsteady).1.trans hplaces, ?_,
    fun _ h ↦ nomatch hnone.symm.trans h⟩
  intro place hplace
  obtain ⟨statement, hstatement, hmade⟩ := hmakes place hplace
  rwa [first_some hstatement]

/-- Every token that does not end the parse makes one node or none. -/
theorem grows_advance (context : Context) (hs : s.Sound) (hopen : s.ended = false)
    (hfatal : s.fatal? t = none) (hfirst : (s.first t).Shaped) (hnamed : (s.first t).Named) :
    ∃ made, s.Grows context (s.advance context t) (s.first t) made := by
  have hnot : ¬s.ended = true := ne_true_of_eq_false hopen
  rw [advance, if_neg hnot]
  cases hkind : t.kind with
  | string | word | atWord | colon | other => exact ⟨none, grows_hold context s t⟩
  | comment => exact grows_addComment context hs t
  | space => exact ⟨none, grows_readSpace context s t⟩
  | openCurly =>
    have haccepts : s.accepts = .rules := by
      rw [fatal?, if_neg hnot] at hfatal
      cases haccepts : s.accepts with
      | rules => rfl
      | declarations => simp [hkind, haccepts] at hfatal
    exact grows_openBlock context hs haccepts hfirst hnamed
  | semicolon =>
    cases hstatement : s.statement with
    | none => exact ⟨none, grows_addText context hstatement t.text _⟩
    | some statement =>
      rw [first_some hstatement] at hnamed ⊢
      exact grows_conclude context hs hstatement hnamed
  | closeCurly =>
    cases hframes : s.frames with
    | nil =>
      have hsame : s.places = { s with frames := [] }.places := by rw [← hframes]
      refine ⟨none, grows_none hsame.symm ?_⟩
      rintro _ ⟨⟩
    | cons frame frames => exact grows_closeBlock context hs hnamed

/-! ## The end of the text -/

theorem places_tree (hframes : s.frames = []) (h : s.scope.Steady) (file : Option String) :
    (s.tree file).places = s.places := by
  have haccepts : s.accepts = .rules := by rw [accepts, hframes]
  rw [places, hframes, haccepts]
  exact h "" .rules

/-- The end of the text makes a node of the statement, if it makes one, and closes the blocks. -/
theorem places_conclusion (context : Context) (hs : s.Sound)
    (hnamed : ∀ statement, s.statement = some statement → statement.first.Named)
    (file : Option String) :
    ∃ made : Option Place,
      ((s.conclusion context).tree file).places = s.places ++ made.toList ∧
        ∀ place ∈ made, ∃ statement, s.statement = some statement ∧
          s.Makes context statement.first place := by
  unfold conclusion
  cases hended : s.ended with
  | true =>
    refine ⟨none, ?_, fun _ h ↦ nomatch h⟩
    rw [if_pos rfl, places_tree (hs.ended hended).1 hs.settled.steady]
    exact (List.append_nil _).symm
  | false =>
    obtain ⟨made, hplaces, hsteady, hmakes⟩ := places_cut context .endOfText hs hnamed
    obtain ⟨hclosed, hstill⟩ := places_closeAll rfl hsteady
    refine ⟨made, ?_, hmakes⟩
    rw [if_neg Bool.false_ne_true, places_tree (closeAll_closed _).1 hstill, hclosed, hplaces]

end State

end Parse

end Stylesheet
