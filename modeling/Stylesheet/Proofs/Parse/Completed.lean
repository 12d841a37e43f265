import Stylesheet.Proofs.Parse.Bare
import Stylesheet.Proofs.Parse.Lossless
import Stylesheet.Proofs.Token.Completed

/-!
# Parsing a completed text

The tree of a text prints the completed text (`text_treeOf`). Where the completed text is parsed in
turn, braces close the blocks that the end of the text closed before, and the states agree from
there on (`conclusion_reached_completed`). They differ where a property has no colon: the end of the
text makes a declaration of it and a brace does not.
-/

namespace Stylesheet

open Text

namespace Token

variable {t u : Token}

theorem Alike.bare_eq (h : t.Alike u) : u.bare = t.bare := by
  rw [bare, bare, h.kind, h.kept, h.start]

end Token

namespace Comment

variable {t u : Token}

theorem toList_kept (h : t.Shaped) (hkind : t.kind = .comment) :
    t.kept.toList = '/' :: '*' :: (content t ++ ['*', '/']) := by
  obtain ⟨inner, hinner⟩ := h.comment hkind
  rw [content_eq hinner, Token.kept, hinner]
  cases t.unclosed <;> simp [hkind]

/-- A comment is the same with its delimiter and without. -/
theorem ofToken_congr (before : String) (h : t.Alike u) (ht : t.Shaped) (hu : u.Shaped)
    (hkind : t.kind = .comment) : ofToken before u = ofToken before t := by
  have hkept : u.kept.toList = t.kept.toList := by rw [h.kept]
  rw [toList_kept ht hkind, toList_kept hu (h.kind.trans hkind)] at hkept
  have hcontent : content u = content t := by simpa using hkept
  rw [ofToken, ofToken, hcontent]

end Comment

namespace Parse.State

variable {context : Context} {s : State} {t u : Token} {braces : List Token}

theorem bare_hold (s : State) (h : u.bare = t.bare) : (s.hold u).bare = (s.hold t).bare := by
  obtain ⟨scope, frames, statement, ended, log⟩ := s
  cases statement with
  | none => simp only [hold, bare, Option.map_some, Statement.bare, h, List.map_nil]
  | some statement =>
    simp only [hold, bare, Option.map_some, Statement.bare, Statement.push, List.map_cons, h]

/-- Behind tokens that are alike a parse goes on in the same way. -/
theorem bare_advance (context : Context) (hopen : s.ended = false) (h : t.Alike u) (ht : t.Shaped)
    (hu : u.Shaped) : (s.advance context u).bare = (s.advance context t).bare := by
  by_cases hkind : t.kind = .comment
  · have hfirst : s.advance context t = s.addComment context t := by
      simp [advance, hopen, hkind]
    have hsecond : s.advance context u = s.addComment context u := by
      simp [advance, hopen, h.kind, hkind]
    rw [hfirst, hsecond, addComment, addComment]
    cases hstatement : s.statement with
    | some statement =>
      exact bare_hold s h.bare_eq
    | none =>
      dsimp only
      rw [h.start, Comment.ofToken_congr s.scope.pending h ht hu hkind]
  · rw [h.same hkind]

/-! ## Braces -/

theorem statement_closeBlock (s : State) : s.closeBlock.statement = s.statement := by
  unfold closeBlock
  cases s.frames <;> rfl

theorem frames_closeBlock (s : State) : s.closeBlock.frames = s.frames.tail := by
  unfold closeBlock
  cases hframes : s.frames with
  | nil => exact hframes
  | cons frame frames => rfl

theorem closeAll_of_nil (h : s.frames = []) : s.closeAll = s := by
  rw [closeAll, h, List.foldl_nil]

theorem closeAll_of_cons {frame : Frame} {frames : List Frame} (h : s.frames = frame :: frames) :
    s.closeAll = s.closeBlock.closeAll := by
  rw [closeAll, closeAll, frames_closeBlock, h, List.foldl_cons, List.tail_cons]

theorem closeAll_closed (s : State) :
    s.closeAll.frames = [] ∧ s.closeAll.statement = s.statement := by
  cases hframes : s.frames with
  | nil =>
    rw [closeAll_of_nil hframes]
    exact ⟨hframes, rfl⟩
  | cons frame frames =>
    have hclosed := closeAll_closed s.closeBlock
    rw [statement_closeBlock] at hclosed
    rwa [closeAll_of_cons hframes]
termination_by s.frames.length
decreasing_by
  rw [frames_closeBlock, hframes]
  exact Nat.lt_succ_self _

/-- What is inside of the blocks can be told from what they are inside of. -/
theorem children_of_closeAll {s s' : State} (hframes : s'.frames = s.frames)
    (h : s'.closeAll.scope.children = s.closeAll.scope.children) :
    s'.scope.children = s.scope.children := by
  cases hopen : s.frames with
  | nil =>
    rw [closeAll_of_nil hopen, closeAll_of_nil (hframes.trans hopen)] at h
    exact h
  | cons frame frames =>
    rw [closeAll_of_cons hopen, closeAll_of_cons (hframes.trans hopen)] at h
    have hclosed := children_of_closeAll (by rw [frames_closeBlock, frames_closeBlock, hframes]) h
    unfold closeBlock at hclosed
    rw [hframes, hopen] at hclosed
    have hblock := (List.cons.inj hclosed).1
    injection hblock with _ _ hchildren _ _
    exact List.reverse_inj.mp hchildren
termination_by s.frames.length
decreasing_by
  rw [frames_closeBlock, hopen]
  exact Nat.lt_succ_self _

theorem cut_of_none (context : Context) (ending : Ending) (h : s.statement = none) :
    s.cut context ending = s := by
  rw [cut, h]

theorem advance_brace (context : Context) {frame : Frame} {frames : List Frame}
    (hkind : t.kind = .closeCurly) (hopen : s.ended = false)
    (hframes : s.frames = frame :: frames) :
    s.advance context t = (s.cut context .closeCurly).closeBlock := by
  have hnot : ¬s.ended = true := ne_true_of_eq_false hopen
  rw [advance, if_neg hnot, hkind, hframes]

/-- As many braces as there are blocks close them all. -/
theorem foldl_braces (context : Context) (hbraces : ∀ u ∈ braces, u.kind = .closeCurly)
    (hlength : braces.length = s.frames.length) (hopen : s.ended = false)
    (hnone : s.statement = none) : braces.foldl (advance context) s = s.closeAll := by
  induction braces generalizing s with
  | nil =>
    have hframes : s.frames = [] := List.eq_nil_of_length_eq_zero hlength.symm
    rw [closeAll_of_nil hframes, List.foldl_nil]
  | cons brace braces ih =>
    obtain ⟨hbrace, hbraces⟩ := List.forall_mem_cons.mp hbraces
    obtain ⟨frame, frames, hframes⟩ := List.exists_cons_of_length_eq_add_one hlength.symm
    have hadvance : s.advance context brace = s.closeBlock := by
      rw [advance_brace context hbrace hopen hframes, cut_of_none context _ hnone]
    rw [List.foldl_cons, hadvance, closeAll_of_cons hframes]
    -- The block that is closed leaves one brace and one block less.
    apply ih hbraces
    · rw [frames_closeBlock, hframes, List.tail_cons]
      simpa [hframes] using hlength
    · rw [ended_closeBlock, hopen]
    · rw [statement_closeBlock, hnone]

/-- The first of the braces cuts the statement. -/
theorem foldl_braces_cut (context : Context) (hbraces : ∀ u ∈ braces, u.kind = .closeCurly)
    (hlength : braces.length = s.frames.length) (hopen : s.ended = false)
    (hframes : s.frames ≠ []) :
    braces.foldl (advance context) s = (s.cut context .closeCurly).closeAll := by
  obtain ⟨frame, frames, hcons⟩ := List.exists_cons_of_ne_nil hframes
  rw [hcons] at hlength
  obtain ⟨brace, braces, rfl⟩ := List.exists_cons_of_length_eq_add_one hlength
  obtain ⟨hbrace, hbraces⟩ := List.forall_mem_cons.mp hbraces
  have hcut : (s.cut context .closeCurly).frames = frame :: frames := by rw [frames_cut, hcons]
  rw [List.foldl_cons, advance_brace context hbrace hopen hcons, closeAll_of_cons hcut]
  apply foldl_braces context hbraces
  · rw [frames_closeBlock, hcut, List.tail_cons]
    exact Nat.succ.inj hlength
  · rw [ended_closeBlock, cut_eq]
    exact hopen
  · rw [statement_closeBlock, cut_eq]

/-- Each brace closes one block. -/
theorem length_frames_foldl_braces (context : Context)
    (hbraces : ∀ u ∈ braces, u.kind = .closeCurly) (hlength : braces.length ≤ s.frames.length)
    (hopen : s.ended = false) :
    (braces.foldl (advance context) s).frames.length = s.frames.length - braces.length ∧
      (braces.foldl (advance context) s).ended = false := by
  induction braces generalizing s with
  | nil => exact ⟨rfl, hopen⟩
  | cons brace braces ih =>
    obtain ⟨hbrace, hbraces⟩ := List.forall_mem_cons.mp hbraces
    obtain ⟨frame, frames, hframes⟩ :=
      List.exists_cons_of_length_pos (Nat.lt_of_lt_of_le (Nat.succ_pos _) hlength)
    have hnext : (s.advance context brace).frames = frames := by
      rw [advance_brace context hbrace hopen hframes, frames_closeBlock, frames_cut, hframes,
        List.tail_cons]
    have hstill : (s.advance context brace).ended = false := by
      rw [advance_brace context hbrace hopen hframes, ended_closeBlock, cut_eq]
      exact hopen
    have hrest : braces.length ≤ (s.advance context brace).frames.length := by
      rw [hnext]
      simpa [hframes] using hlength
    obtain ⟨hcount, hended⟩ := ih hbraces hrest hstill
    refine ⟨?_, hended⟩
    rw [List.foldl_cons, hcount, hnext, hframes, List.length_cons, List.length_cons]
    omega

theorem fatalIn?_append (context : Context) (s : State) (ts us : List Token) :
    s.fatalIn? context (ts ++ us) =
      (s.fatalIn? context ts).or ((ts.foldl (advance context) s).fatalIn? context us) := by
  induction ts generalizing s with
  | nil => rfl
  | cons t ts ih =>
    rw [List.cons_append, fatalIn?, fatalIn?, ih, List.foldl_cons, Option.or_assoc]

theorem fatalIn?_braces (context : Context) (s : State)
    (hbraces : ∀ u ∈ braces, u.kind = .closeCurly) : s.fatalIn? context braces = none := by
  induction braces generalizing s with
  | nil => rfl
  | cons brace braces ih =>
    obtain ⟨hbrace, hbraces⟩ := List.forall_mem_cons.mp hbraces
    have hfatal : s.fatal? brace = none := by simp [fatal?, hbrace]
    rw [fatalIn?, hfatal, ih _ hbraces]
    rfl

theorem fatal?_alike (s : State) (h : t.Alike u) : s.fatal? u = s.fatal? t := by
  by_cases hkind : t.kind = .comment
  · simp [fatal?, h.kind, hkind]
  · rw [h.same hkind]

/-! ## The end of the text -/

/-- The state behind the completed text. The blocks are closed by braces. -/
def completion (context : Context) (s : State) : State :=
  if s.ended then s
  else (s.cut context (if s.frames.isEmpty then .endOfText else .closeCurly)).closeAll

theorem conclusion_closeAll (context : Context) (hnone : s.statement = none) :
    s.closeAll.conclusion context = s.closeAll := by
  have hclosed := closeAll_closed s
  rw [conclusion, cut_of_none context _ (hclosed.2.trans hnone), closeAll_of_nil hclosed.1,
    ite_self]

/-- The statement that has been started is to be a declaration and has no colon. -/
def LacksColon (s : State) : Prop :=
  s.accepts = .declarations ∧
    ∃ statement, s.statement = some statement ∧ ∀ t ∈ statement.tokens, t.kind ≠ .colon

theorem text_scope_completion (context : Context) (hs : s.Sound) :
    (s.completion context).scope.text = (s.conclusion context).scope.text := by
  have hcut (ending : Ending) (hending : ending ≠ .semicolon) :
      (s.cut context ending).closeAll.scope.text = s.text ++ closers s.frames.length := by
    have hnone : (s.cut context ending).statement = none := by rw [cut_eq]
    have hclosed := text_foldl_closeBlock (frames_cut context s ending) hnone
    rw [text_cut context hs hending] at hclosed
    rw [closeAll, frames_cut, hclosed]
  unfold completion conclusion
  cases s.ended with
  | true => rfl
  | false =>
    rw [if_neg Bool.false_ne_true, if_neg Bool.false_ne_true, hcut .endOfText (by decide)]
    cases s.frames.isEmpty with
    | true => exact hcut .endOfText (by decide)
    | false => exact hcut .closeCurly (by decide)

theorem colon_splitSpace (statement : Statement) :
    (∀ t ∈ statement.splitSpace.1.tokens, t.kind ≠ .colon) ↔
      ∀ t ∈ statement.tokens, t.kind ≠ .colon := by
  have hspace : ∀ t ∈ statement.splitSpace.2, t.kind ≠ .colon := fun t ht ↦ by
    simp [Statement.kind_of_mem_splitSpace ht]
  rw [← Statement.tokens_splitSpace statement, List.forall_mem_append]
  exact (and_iff_left hspace).symm

/-- A brace cuts a statement as the end of the text does, unless the statement lacks its colon. -/
theorem cut_closeCurly (context : Context) (h : ¬s.LacksColon) :
    s.cut context .closeCurly = s.cut context .endOfText := by
  cases hstatement : s.statement with
  | none => rw [cut_of_none context _ hstatement, cut_of_none context _ hstatement]
  | some statement =>
    have hleaf : { s with statement := none : State }.leaf? statement.splitSpace.1 .closeCurly =
        { s with statement := none : State }.leaf? statement.splitSpace.1 .endOfText := by
      have haccepts : { s with statement := none : State }.accepts = s.accepts := rfl
      unfold leaf?
      rw [haccepts]
      cases hbody : s.accepts with
      | rules => rfl
      | declarations =>
        cases hdeclaration : Declaration.ofTokens?
            { s with statement := none : State }.scope.pending statement.splitSpace.1.tokens with
        | some d => rfl
        | none =>
          have hcolon := (Declaration.ofTokens?_eq_none_iff _ _).mp hdeclaration
          exact absurd ⟨hbody, statement, hstatement, (colon_splitSpace statement).mp hcolon⟩ h
    unfold cut conclude
    rw [hstatement]
    dsimp only
    rw [hleaf]
    rfl

theorem completion_eq (context : Context) (h : ¬s.LacksColon) :
    s.completion context = s.conclusion context := by
  unfold completion conclusion
  cases s.frames.isEmpty with
  | true => rfl
  | false =>
    rw [if_neg Bool.false_ne_true, cut_closeCurly context h]

/-- The end of the text makes a node of the statement, and a brace does not. -/
theorem children_completion_ne (context : Context) (h : s.LacksColon) (hopen : s.ended = false) :
    (s.completion context).scope.children ≠ (s.conclusion context).scope.children := by
  obtain ⟨hbody, statement, hstatement, hcolon⟩ := h
  have haccepts : { s with statement := none : State }.accepts = .declarations := hbody
  have hdeclaration : Declaration.ofTokens? { s with statement := none : State }.scope.pending
      statement.splitSpace.1.tokens = none := by
    rw [Declaration.ofTokens?_eq_none_iff]
    exact (colon_splitSpace statement).mpr hcolon
  have hframes : s.frames.isEmpty = false := by
    unfold accepts at hbody
    cases hframes : s.frames with
    | nil => simp [hframes] at hbody
    | cons frame frames => rfl
  have hbrace : (s.cut context .closeCurly).scope.children = s.scope.children := by
    simp [cut, hstatement, conclude, leaf?, haccepts, hdeclaration, keepStatement, addText,
      Scope.addText]
  have hend : ∃ leaf, (s.cut context .endOfText).scope.children = leaf :: s.scope.children := by
    simp [cut, hstatement, conclude, leaf?, haccepts, hdeclaration, addText, Scope.addText,
      addLeaf, setSemicolon, Scope.add]
  have hnot : ¬s.ended = true := ne_true_of_eq_false hopen
  intro hsame
  rw [completion, conclusion, if_neg hnot, if_neg hnot, hframes, if_neg Bool.false_ne_true] at hsame
  have hchildren := children_of_closeAll (by rw [frames_cut, frames_cut]) hsame
  obtain ⟨leaf, hleaf⟩ := hend
  rw [hbrace, hleaf] at hchildren
  exact List.cons_ne_self leaf _ hchildren.symm

end Parse.State

/-! ## The completed text -/

namespace Parse

open State

variable {context : Context} {front braces : List Token} {t last : Token} {blocks : Nat}

theorem reached_append (context : Context) (front : List Token) (t : Token) (behind : List Token) :
    reached context (front ++ t :: behind) =
      behind.foldl (State.advance context) ((reached context front).advance context t) := by
  rw [reached, reached, List.foldl_append, List.foldl_cons]

theorem reached_concat (context : Context) (front : List Token) (t : Token) :
    reached context (front ++ [t]) = (reached context front).advance context t :=
  reached_append context front t []

theorem ended_front (h : (reached context (front ++ [t])).ended = false) :
    (reached context front).ended = false := by
  rw [reached_concat, ended_advance, Bool.or_eq_false_iff] at h
  exact h.1

/-- Where no brace is swallowed, the completed text leads to the same blocks, and the braces close
them. -/
theorem conclusion_reached_completed (ht : t.Shaped) (hlast : last.Shaped) (halike : t.Alike last)
    (hkinds : ∀ u ∈ braces, u.kind = .closeCurly)
    (hlength : braces.length = (reached context (front ++ [t])).frames.length)
    (hopen : (reached context (front ++ [t])).ended = false) :
    (reached context (front ++ last :: braces)).conclusion context =
      (reached context (front ++ [t])).completion context := by
  have hfront := ended_front hopen
  rw [reached_concat] at hopen hlength ⊢
  rw [reached_append]
  have hbare := bare_advance context hfront halike ht hlast
  generalize (reached context front).advance context last = s' at hbare ⊢
  generalize (reached context front).advance context t = s at hbare hopen hlength ⊢
  have hcut (ending : Ending) : s'.cut context ending = s.cut context ending := by
    rw [← cut_bare, hbare, cut_bare]
  have hframes : s'.frames = s.frames := by rw [← frames_bare, hbare, frames_bare]
  have hended : s'.ended = false := by rw [← ended_bare, hbare, ended_bare, hopen]
  have hnot : ¬s.ended = true := ne_true_of_eq_false hopen
  have hnone : (s.cut context .closeCurly).statement = none := by rw [cut_eq]
  rw [completion, if_neg hnot]
  rw [← hframes] at hlength ⊢
  by_cases hblocks : s'.frames = []
  · have hnil : braces = [] := by
      rw [hblocks] at hlength
      exact List.eq_nil_of_length_eq_zero hlength
    rw [hnil, List.foldl_nil, conclusion, hended, if_neg Bool.false_ne_true, hcut, hblocks]
    rfl
  · have hsome : s'.frames.isEmpty = false := List.isEmpty_eq_false_iff.mpr hblocks
    calc (braces.foldl (advance context) s').conclusion context
      _ = (s'.cut context .closeCurly).closeAll.conclusion context := by
        rw [foldl_braces_cut context hkinds hlength hended hblocks]
      _ = (s.cut context .closeCurly).closeAll := by
        rw [hcut, conclusion_closeAll context hnone]
      _ = _ := by
        rw [hsome]
        rfl

/-- Where braces are swallowed, a block is left open. -/
theorem frames_reached_swallowed (hswallows : t.swallows = true)
    (hcompletes : t.Completes blocks last braces) (hpos : 0 < blocks)
    (hblocks : blocks = (reached context (front ++ [t])).frames.length)
    (hopen : (reached context (front ++ [t])).ended = false) :
    0 < (reached context (front ++ last :: braces)).frames.length ∧
      (reached context (front ++ last :: braces)).ended = false := by
  have hfront := ended_front hopen
  have hkind : t.kind = .string ∨ t.kind = .word ∨ t.kind = .atWord := by
    cases hkind : t.kind <;> simp [Token.swallows, hkind] at hswallows ⊢
  have hhold (u : Token) (hu : u.kind = t.kind) :
      (reached context front).advance context u = (reached context front).hold u := by
    have hnot : ¬(reached context front).ended = true := ne_true_of_eq_false hfront
    rw [advance, if_neg hnot, hu]
    rcases hkind with hkind | hkind | hkind <;> rw [hkind]
  have hframes (u : Token) : ((reached context front).hold u).frames =
      (reached context front).frames := by
    unfold hold
    cases (reached context front).statement <;> rfl
  have hfewer := hcompletes.fewer hswallows hpos
  rw [reached_concat, hhold t rfl, hframes] at hblocks
  rw [reached_append, hhold last hcompletes.kind]
  obtain ⟨hcount, hended⟩ := length_frames_foldl_braces context hcompletes.kind_braces
    (s := (reached context front).hold last) (by rw [hframes]; omega)
    ((ended_hold _ _).trans hfront)
  rw [hframes] at hcount
  exact ⟨by omega, hended⟩

theorem fatalIn?_completed (hkinds : ∀ u ∈ braces, u.kind = .closeCurly) (halike : t.Alike last)
    (h : State.fatalIn? context {} (front ++ [t]) = none) :
    State.fatalIn? context {} (front ++ last :: braces) = none := by
  rw [fatalIn?_append, Option.or_eq_none_iff, fatalIn?, Option.or_eq_none_iff] at h ⊢
  rw [fatal?_alike _ halike]
  exact ⟨h.1, h.2.1, fatalIn?_braces context _ hkinds⟩

end Parse

end Stylesheet
