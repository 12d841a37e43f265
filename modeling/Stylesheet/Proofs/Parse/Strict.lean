import Stylesheet.Proofs.Parse.Acceptance
import Stylesheet.Proofs.Parse.Completed
import Stylesheet.Proofs.Parse.Written

/-!
# The trees of strict parsing

Where no token is a stray bracket, the tree of a strict parse is written (`written_of_parse`). All
along the parse the nodes that have been read are written, and the statement that has been started
is made of tokens that are chained in front of the rest of the text (`Parse.State.Spells`).
-/

namespace Stylesheet

open Text Grammar Piece

theorem Leaf.written_iff {fits : List Char → Prop} {kind : BodyKind} {l : Leaf}
    (h : l.isComment = false) :
    l.Written fits kind ↔ ∃ ts, Spelled fits (l.addTo "").toList ts ∧
      (Leaf.ofTokens? kind ts).map Leaf.gist = some l.gist := by
  cases l with
  | comment c => contradiction
  | declaration d => rfl
  | statement p => rfl

theorem Statement.splitSpace_eq {s : Statement} (h : s.first.kind ≠ .space) :
    (s.splitSpace.1.tokens, s.splitSpace.2) = splitTrailingSpace s.tokens := by
  obtain ⟨first, more⟩ := s
  cases more with
  | nil => simp [splitSpace, tokens, splitTrailingSpace, h]
  | cons t more =>
    have htokens : (Statement.mk first (t :: more)).tokens = first :: more.reverse ++ [t] := by
      simp [tokens]
    unfold splitSpace
    by_cases hspace : t.kind = .space
    · rw [htokens, splitTrailingSpace_concat hspace]
      simp [hspace, tokens]
    · rw [htokens, splitTrailingSpace_of_getLast? (by
        rw [List.getLast?_concat]
        simpa using hspace)]
      simp [hspace, tokens]

theorem isGap_keptText {ts : List Token} {behind : List Char} (hkind : ∀ t ∈ ts, t.kind = .space)
    (h : Chained (ts.map Token.piece) behind) : IsGap (keptText ts).toList := by
  induction ts with
  | nil => exact isGap_nil
  | cons t ts ih =>
    obtain ⟨ht, hts⟩ := List.forall_mem_cons.mp hkind
    have hkept : t.kept = t.text := Token.kept_of_kind_ne (by simp [ht])
    rw [keptText_cons, hkept, String.toList_append]
    exact isGap_append (isGap_of_blanks (h.1.isBlank_of_space ht)) (ih hts h.2)

namespace Parse

/-- The blocks that are open are in lists of rules, their heads and what stands in front of them
are written. -/
def FramesWritten : List Frame → Prop
  | [] => True
  | frame :: frames =>
    frame.head.Written ∧ (∀ n ∈ frame.outer.children, n.Written .rules) ∧
      (frames.map fun frame ↦ frame.head.body).headD .rules = .rules ∧ FramesWritten frames

namespace State

/-- What holds all along a strict parse, in front of the rest of the text. -/
structure Spells (s : State) (behind : List Char) : Prop where
  sound : s.Sound
  ended : s.ended = false
  children : ∀ n ∈ s.scope.children, n.Written s.accepts
  pending : IsGap s.scope.pending.toList
  semicolon : ∀ n ∈ s.scope.children.find? (!·.isComment), n.isStatement = true →
    s.scope.semicolon = true
  frames : FramesWritten s.frames
  held : Held s.heldTokens
  firm : ∀ t ∈ s.heldTokens, t.piece.Firm
  chained : Chained (s.heldTokens.map Token.piece) behind

variable {context : Context} {s : State} {t : Token} {behind : List Char} {ending : Ending}
variable {statement : Statement} {leaf : Leaf} {fits : List Char → Prop}

theorem accepts_hold (s : State) (t : Token) : (s.hold t).accepts = s.accepts := by
  rw [accepts_eq, bodies_hold, accepts_eq]

theorem Spells.unclosed (hs : s.Spells behind) : ∀ t ∈ s.heldTokens, t.unclosed = false := by
  intro t ht
  have hclosed := (hs.firm t ht).1
  simpa [Token.piece] using hclosed

/-! ## Statements -/

/-- A statement that has been spelled makes a leaf that is written. -/
theorem written_of_leaf? {core : List Token} (hfirst : statement.first.Shaped)
    (hclosed : ∀ t ∈ statement.tokens, t.unclosed = false)
    (hending : ending ≠ .endOfText ∨ s.accepts = .rules)
    (hspelled : Spelled fits
      (s.scope.pending.toList ++ join (statement.tokens.map Token.piece)) core)
    (hgist : (Leaf.ofTokens? s.accepts core).map Leaf.gist =
      (Leaf.ofTokens? s.accepts statement.tokens).map Leaf.gist)
    (hleaf : s.leaf? statement ending = some leaf) : leaf.Written fits s.accepts := by
  have htext := congrArg String.toList (addTo_leaf? hleaf hfirst)
  rw [String.toList_append, toList_keptText hclosed] at htext
  have hsays := s.gist_leaf? statement hending
  rw [hleaf, Option.map_some] at hsays
  rw [Leaf.written_iff (isComment_leaf? hleaf), htext]
  exact ⟨core, hspelled, hgist.trans hsays.symm⟩

theorem written_leaf?_of_chained (hs : s.Spells behind) (hst : Held statement.tokens)
    (hfirst : statement.first.Shaped) (hfirm : ∀ t ∈ statement.tokens, t.piece.Firm)
    (hending : ending ≠ .endOfText ∨ s.accepts = .rules) {later : List Char}
    (hchained : Chained (statement.tokens.map Token.piece) later) (hne : later ≠ [])
    (hleaf : s.leaf? statement ending = some leaf) : leaf.Written Delimits s.accepts := by
  have hclosed : ∀ t ∈ statement.tokens, t.unclosed = false := fun t ht ↦ by
    simpa [Token.piece] using (hfirm t ht).1
  exact written_of_leaf? hfirst hclosed hending
    (spelled_of_chained hs.pending hst hfirm hchained hne)
    (Leaf.gist_ofTokens?_splitTrailingSpace s.accepts hchained) hleaf

/-! ## Steps -/

theorem Spells.hold (hs : s.Spells (t.text.toList ++ behind)) (hleads : t.piece.Leads behind)
    (ht : t.Shaped) (hfirm : t.piece.Firm) (hplain : t.IsPlain)
    (hstarts : s.heldTokens = [] → t.StartsAt ∨ t.StartsSelector) : (s.hold t).Spells behind := by
  have hscope : (s.hold t).scope = s.scope := by
    unfold State.hold
    cases s.statement <;> rfl
  have hframes : (s.hold t).frames = s.frames := by
    unfold State.hold
    cases s.statement <;> rfl
  refine
    { sound := (prints_hold hs.sound ht hs.ended).sound
      ended := (ended_hold s t).trans hs.ended
      children := ?_
      pending := by rw [hscope]; exact hs.pending
      semicolon := by rw [hscope]; exact hs.semicolon
      frames := hframes ▸ hs.frames
      held := held_concat hs.held hplain hstarts
      firm := ?_
      chained := ?_ }
  · rw [hscope, accepts_hold]
    exact hs.children
  · rw [heldTokens_hold]
    exact List.forall_mem_append.mpr ⟨hs.firm, by simpa using hfirm⟩
  · rw [heldTokens_hold, List.map_append, chained_append]
    refine ⟨?_, hleads, trivial⟩
    have hchained := hs.chained
    simpa [Token.piece] using hchained

theorem Spells.addText {cs : List Char} {text : String} (hs : s.Spells cs)
    (hnone : s.statement = none) (hgap : IsGap text.toList) : (s.addText text).Spells behind where
  sound := (prints_addText hs.sound hnone text).sound
  ended := hs.ended
  children := hs.children
  pending := by
    change IsGap (s.scope.pending ++ text).toList
    rw [String.toList_append]
    exact isGap_append hs.pending hgap
  semicolon := hs.semicolon
  frames := hs.frames
  held := hs.held
  firm := hs.firm
  chained := by
    have hheld : (s.addText text).heldTokens = [] := heldTokens_none hnone
    rw [hheld]
    trivial

theorem Spells.addComment (context : Context) {cs : List Char} (hs : s.Spells cs)
    (hnone : s.statement = none) (hleads : t.piece.Leads behind) (ht : t.Shaped)
    (hkind : t.kind = .comment) (hclosed : t.unclosed = false) :
    (s.addComment context t).Spells behind := by
  have hadd : s.addComment context t = s.addLeaf (context.source t.start)
      (.comment (Comment.ofToken s.scope.pending t)) := by rw [State.addComment, hnone]
  have hall (later : List Char) : t.piece.Leads later := by
    have hpiece : t.piece.kind = .comment := hkind
    have hfirm : t.piece.closed = true := by simp [Token.piece, hclosed]
    exact hleads.exchange hfirm (by simp [hpiece]) (by simp [hpiece]) (by simp [StopsAt, hpiece])
  have hwritten :
      (Leaf.comment (Comment.ofToken s.scope.pending t)).Written Delimits s.accepts := by
    refine ⟨s.scope.pending.toList, t, ?_, hs.pending, hkind, hall, hclosed, rfl⟩
    rw [Comment.addTo_ofToken _ ht hkind, String.toList_append, Token.kept_of_closed hclosed]
  rw [hadd]
  exact
    { sound := hadd ▸ (prints_addComment hs.sound ht hs.ended hkind).sound
      ended := hs.ended
      children := List.forall_mem_cons.mpr ⟨.leaf hwritten, hs.children⟩
      pending := isGap_nil
      semicolon := hs.semicolon
      frames := hs.frames
      held := hs.held
      firm := hs.firm
      chained := by
        have hheld : (s.addLeaf (context.source t.start)
            (.comment (Comment.ofToken s.scope.pending t))).heldTokens = [] :=
          heldTokens_none hnone
        rw [hheld]
        trivial }

theorem Spells.openBlock (context : Context) (brace : Token) {cs : List Char} (hs : s.Spells cs)
    (hne : cs ≠ []) (hrules : s.accepts = .rules) :
    (s.openBlock (s.blockHead context brace).1 (s.blockHead context brace).2).Spells behind where
  sound := (prints_openBlock context brace hs.sound hs.ended).sound
  ended := hs.ended
  children _ h := nomatch h
  pending := isGap_nil
  semicolon _ h := nomatch h
  frames := by
    refine ⟨⟨(splitTrailingSpace s.heldTokens).1, ?_, ?_⟩, hrules ▸ hs.children,
      (accepts_eq s).symm.trans hrules, hs.frames⟩
    · rw [addTo_blockHead context brace hs.sound, String.toList_append, toList_keptText hs.unclosed]
      exact spelled_of_chained hs.pending hs.held hs.firm hs.chained hne
    · rw [Head.gist_ofTokens_splitTrailingSpace hs.chained, gist_blockHead]
  held := held_nil
  firm _ h := nomatch h
  chained := trivial

theorem Spells.conclude (context : Context) {cs : List Char} (hs : s.Spells cs) (hne : cs ≠ [])
    (hstatement : s.statement = some statement) (hleaf : (s.leaf? statement .semicolon).isSome) :
    ({ s with statement := none }.conclude context statement .semicolon).Spells behind := by
  obtain ⟨leaf, hleaf⟩ := Option.isSome_iff_exists.mp hleaf
  have hsame : { s with statement := none : State }.leaf? statement .semicolon = some leaf := hleaf
  have hsound := (prints_conclude context hs.sound hs.ended hstatement).sound
  have hheld := hs.held
  have hfirm := hs.firm
  have hchained := hs.chained
  rw [heldTokens_some hstatement] at hheld hfirm hchained
  have hwritten : leaf.Written Delimits s.accepts :=
    written_leaf?_of_chained hs hheld (hs.sound.shaped statement hstatement) hfirm
      (.inl (by decide)) hchained hne hleaf
  unfold State.conclude at hsound ⊢
  rw [hsame] at hsound ⊢
  exact
    { sound := hsound
      ended := hs.ended
      children := List.forall_mem_cons.mpr ⟨.leaf hwritten, hs.children⟩
      pending := isGap_nil
      semicolon := fun _ _ _ ↦ rfl
      frames := hs.frames
      held := held_nil
      firm := fun _ h ↦ nomatch h
      chained := trivial }

theorem Spells.apart (hs : s.Spells behind) :
    Node.Apart s.scope.semicolon s.scope.children.reverse := by
  intro hnone n hn hstands
  rw [List.reverse_reverse] at hn
  have hhas := hs.semicolon n hn hstands
  rw [hnone] at hhas
  contradiction

/-- What is left of the innermost block where a brace closes it. -/
theorem Spells.cut (context : Context) {cs : List Char} (hs : s.Spells cs) (hne : cs ≠ [])
    (hrepair : s.cutRepair? .closeCurly = none) :
    (∀ n ∈ (s.cut context .closeCurly).scope.children, n.Written s.accepts) ∧
      IsGap (s.cut context .closeCurly).scope.pending.toList ∧
        Node.Apart (s.cut context .closeCurly).scope.semicolon
          (s.cut context .closeCurly).scope.children.reverse := by
  unfold State.cut
  unfold cutRepair? at hrepair
  cases hstatement : s.statement with
  | none => exact ⟨hs.children, hs.pending, hs.apart⟩
  | some statement =>
    rw [hstatement, Option.bind_some, keeping?_eq_none_iff] at hrepair
    obtain ⟨leaf, hleaf⟩ := Option.isSome_iff_exists.mp hrepair
    have hsame : { s with statement := none : State }.leaf? statement.splitSpace.1 .closeCurly =
        some leaf := hleaf
    have hheld := hs.held
    have hfirm := hs.firm
    have hchained := hs.chained
    rw [heldTokens_some hstatement, ← Statement.tokens_splitSpace] at hheld hfirm hchained
    rw [List.map_append, chained_append] at hchained
    have hwritten : leaf.Written Delimits s.accepts := by
      apply written_leaf?_of_chained hs hheld.of_append _ _ (.inl (by decide)) hchained.1 _ hleaf
      · rw [Statement.first_splitSpace]
        exact hs.sound.shaped statement hstatement
      · exact fun t ht ↦ hfirm t (List.mem_append_left _ ht)
      · exact List.append_ne_nil_of_right_ne_nil _ hne
    have hgap : IsGap (keptText statement.splitSpace.2).toList :=
      isGap_keptText (fun t ht ↦ Statement.kind_of_mem_splitSpace ht) hchained.2
    dsimp only
    unfold State.conclude
    rw [hsame]
    refine ⟨List.forall_mem_cons.mpr ⟨.leaf hwritten, hs.children⟩, ?_, fun _ _ _ _ last hlast ↦ ?_⟩
    · exact hgap
    · change last ∈ (Node.leaf _ leaf :: s.scope.children).reverse.getLast? at hlast
      rw [List.getLast?_reverse] at hlast
      obtain rfl := Option.some.inj hlast
      exact isComment_leaf? hleaf

theorem Spells.closeBlock (context : Context) {cs : List Char} (hs : s.Spells cs) (hne : cs ≠ [])
    {frame : Frame} {frames : List Frame} (hframes : s.frames = frame :: frames)
    (hrepair : s.cutRepair? .closeCurly = none) :
    (s.cut context .closeCurly).closeBlock.Spells behind := by
  obtain ⟨hchildren, hgap, hapart⟩ := hs.cut context hne hrepair
  have hsound := (prints_closeBlock context hs.sound hs.ended hframes).sound
  have hwritten := hs.frames
  have hbody : s.accepts = frame.head.body := by
    rw [accepts, hframes]
  have hcut := cut_eq context s .closeCurly
  rw [hframes] at hwritten hcut
  rw [hbody] at hchildren
  generalize (s.cut context .closeCurly).scope = scope at *
  rw [hcut] at hsound ⊢
  obtain ⟨source, head, outer⟩ := frame
  obtain ⟨hhead, houter, hrules, hframes⟩ := hwritten
  let block := Node.block source head scope.children.reverse scope.pending scope.semicolon
  have hblock : block.Written .rules :=
    .block hhead (fun n hn ↦ hchildren n (List.mem_reverse.mp hn)) hgap hapart
  let next := { s with scope := outer.add block, frames, statement := none }
  have haccepts : next.accepts = .rules := (accepts_eq next).trans hrules
  change next.Sound at hsound
  change next.Spells behind
  exact
    { sound := hsound
      ended := hs.ended
      children := haccepts ▸ List.forall_mem_cons.mpr ⟨hblock, houter⟩
      pending := isGap_nil
      semicolon := fun n hn hstands ↦ by
        obtain rfl := Option.some.inj hn
        contradiction
      frames := hframes
      held := held_nil
      firm := fun _ h ↦ nomatch h
      chained := trivial }

theorem Spells.advance (context : Context) (hs : s.Spells (t.text.toList ++ behind)) (ht : t.Shaped)
    (hfirm : t.piece.Firm) (hleads : t.piece.Leads behind) (hfatal : s.fatal? t = none)
    (hrepair : s.repair? t = none) : (s.advance context t).Spells behind := by
  have hopen : ¬s.ended = true := ne_true_of_eq_false hs.ended
  have hne : t.text.toList ++ behind ≠ [] := List.append_ne_nil_of_left_ne_nil hleads.text_ne_nil _
  have hclosed : t.unclosed = false := by simpa [Token.piece] using hfirm.1
  have hinside {statement : Statement} (hstatement : s.statement = some statement)
      (hplain : t.IsPlain) : (s.hold t).Spells behind :=
    hs.hold hleads ht hfirm hplain fun hnil ↦ absurd hnil (heldTokens_ne_nil hstatement)
  unfold fatal? at hfatal
  unfold repair? at hrepair
  unfold State.advance
  rw [if_neg hopen] at hfatal hrepair ⊢
  cases hkind : t.kind with
  | word | string | colon =>
    refine hs.hold hleads ht hfirm ?_ fun _ ↦ .inr ?_
    · simp [Token.IsPlain, hkind]
    · simp [Token.StartsSelector, hkind]
  | other => exact absurd hkind hfirm.2
  | atWord =>
    refine hs.hold hleads ht hfirm (by simp [Token.IsPlain, hkind]) fun hnil ↦ .inl ?_
    rw [Token.startsAt_iff ht hkind]
    intro htext
    cases hstatement : s.statement with
    | none => simp [hkind, hstatement, htext] at hfatal
    | some statement => exact heldTokens_ne_nil hstatement hnil
  | space =>
    dsimp only
    unfold readSpace
    cases hstatement : s.statement with
    | some statement =>
      have hheld := hinside hstatement (by simp [Token.IsPlain, hkind])
      rwa [State.hold, hstatement] at hheld
    | none => exact hs.addText hstatement (isGap_of_blanks (hleads.isBlank_of_space hkind))
  | comment =>
    cases hstatement : s.statement with
    | some statement =>
      have hheld := hinside hstatement (by simp [Token.IsPlain, hkind])
      dsimp only
      rwa [State.addComment, hstatement]
    | none => exact hs.addComment context hstatement hleads ht hkind hclosed
  | openCurly =>
    refine hs.openBlock context t hne ?_
    cases haccepts : s.accepts with
    | rules => rfl
    | declarations => simp [hkind, haccepts] at hfatal
  | semicolon =>
    have htext : t.text = ";" := ht.single ';' (by rw [hkind]; rfl)
    cases hstatement : s.statement with
    | none =>
      refine hs.addText hstatement ?_
      rw [htext]
      exact fun c hc ↦ .inr (by simpa using hc)
    | some statement =>
      rw [hkind, hstatement] at hrepair
      exact hs.conclude context hne hstatement (keeping?_eq_none_iff.mp hrepair)
  | closeCurly =>
    rw [hkind] at hrepair
    cases hframes : s.frames with
    | nil => simp [hframes] at hrepair
    | cons frame frames =>
      rw [hframes] at hrepair
      exact hs.closeBlock context hne hframes hrepair

/-- All along the tokens the state spells what has been read. -/
theorem Spells.foldl_advance (context : Context) {ts : List Token}
    (hs : s.Spells (join (ts.map Token.piece))) (hts : ∀ t ∈ ts, t.Shaped ∧ t.piece.Firm)
    (hchained : Chained (ts.map Token.piece) []) (hfatal : s.fatalIn? context ts = none)
    (hrepairs : s.repairsIn context ts = []) : (ts.foldl (State.advance context) s).Spells [] := by
  induction ts generalizing s with
  | nil => exact hs
  | cons t ts ih =>
    obtain ⟨⟨ht, hfirm⟩, hts⟩ := List.forall_mem_cons.mp hts
    obtain ⟨hleads, hrest⟩ := hchained
    rw [List.append_nil] at hleads
    obtain ⟨hfirst, hlater⟩ := Option.or_eq_none_iff.mp hfatal
    rw [repairsIn, hfirst, if_neg (by simp)] at hrepairs
    obtain ⟨hnone, hrepairs⟩ := List.append_eq_nil_iff.mp hrepairs
    have hnext := hs.advance context ht hfirm hleads hfirst (Option.toList_eq_nil_iff.mp hnone)
    exact ih hnext hts hrest hlater hrepairs

/-! ## The end of the text -/

theorem spells_start (behind : List Char) : ({} : State).Spells behind where
  sound := sound_start
  ended := rfl
  children _ h := nomatch h
  pending := isGap_nil
  semicolon _ h := nomatch h
  frames := trivial
  held := held_nil
  firm _ h := nomatch h
  chained := trivial

/-- The last statement is read in front of the white space at the end of the text alone. -/
theorem Spells.spelled_splitSpace (hs : s.Spells []) (hstatement : s.statement = some statement) :
    Spelled (· = (keptText statement.splitSpace.2).toList)
      (s.scope.pending.toList ++ join (statement.splitSpace.1.tokens.map Token.piece))
      statement.splitSpace.1.tokens := by
  have hheld := hs.held
  have hfirm := hs.firm
  have hclosed := hs.unclosed
  have hchained := hs.chained
  rw [heldTokens_some hstatement] at hheld hfirm hclosed hchained
  have hsplit := Statement.splitSpace_eq hheld.first_ne_space
  have htrimmed := trimmed_splitTrailingSpace hchained
  rw [← hsplit] at htrimmed
  rw [← Statement.tokens_splitSpace] at hheld hfirm hclosed hchained
  rw [List.map_append, chained_append, List.append_nil] at hchained
  refine ⟨hheld.of_append, fun t ht ↦ hfirm t (List.mem_append_left _ ht), htrimmed,
    s.scope.pending.toList, [], (List.append_nil _).symm, hs.pending, by simp, fun _ ↦ rfl, ?_⟩
  rintro later rfl
  rw [List.nil_append, toList_keptText fun t ht ↦ hclosed t (List.mem_append_right _ ht)]
  exact hchained.1

theorem Spells.written_tree (context : Context) (file : Option String) (hs : s.Spells [])
    (hfinal : s.finalRefusal? = none) : ((s.conclusion context).tree file).Written := by
  obtain ⟨hframes, hrepair⟩ := (finalRefusal?_eq_none_iff_closed s hs.ended).mp hfinal
  have hrules : s.accepts = .rules := by
    rw [accepts, hframes]
  have hchildren := hs.children
  rw [hrules] at hchildren
  rw [conclusion_of_closed context s hs.ended hframes]
  unfold State.cut
  unfold cutRepair? at hrepair
  cases hstatement : s.statement with
  | none =>
    exact ⟨hs.pending, .inl ⟨fun n hn ↦ hchildren n (List.mem_reverse.mp hn), hs.apart⟩⟩
  | some statement =>
    rw [hstatement, Option.bind_some, keeping?_eq_none_iff] at hrepair
    obtain ⟨leaf, hleaf⟩ := Option.isSome_iff_exists.mp hrepair
    have hsame : { s with statement := none : State }.leaf? statement.splitSpace.1 .endOfText =
        some leaf := hleaf
    have hchained := hs.chained
    have hclosed := hs.unclosed
    rw [heldTokens_some hstatement, ← Statement.tokens_splitSpace] at hchained hclosed
    rw [List.map_append, chained_append] at hchained
    have hwritten := written_of_leaf? (by
        rw [Statement.first_splitSpace]
        exact hs.sound.shaped statement hstatement)
      (fun t ht ↦ hclosed t (List.mem_append_left _ ht)) (.inr hrules)
      (hs.spelled_splitSpace hstatement) rfl hleaf
    rw [hrules] at hwritten
    dsimp only
    unfold State.conclude
    rw [hsame]
    refine ⟨?_, .inr ⟨s.scope.children.reverse, _, leaf, List.reverse_cons, ?_, rfl,
      isComment_leaf? hleaf, ?_⟩⟩
    · exact isGap_keptText (fun t ht ↦ Statement.kind_of_mem_splitSpace ht) hchained.2
    · exact fun n hn ↦ hchildren n (List.mem_reverse.mp hn)
    · exact hwritten

end State

end Parse

open Parse

theorem written_of_parse {options : Options} {text : String} {tree : Tree}
    (hstrict : options.strict = true) (hparse : parse options text = .ok tree)
    (hother : ∀ t ∈ tokenize text, t.kind ≠ .other) : tree.Written := by
  obtain ⟨hfatal, hrepairs, hfinal, rfl⟩ :=
    (parse_strict_eq_ok_iff options text hstrict tree).mp hparse
  have hshaped := shaped_of_mem_tokenize text
  have hclosed := State.unclosed_of_repairsIn_eq_nil hshaped rfl hfatal hrepairs
  have hts : ∀ t ∈ tokenize text, t.Shaped ∧ t.piece.Firm := fun t ht ↦
    ⟨hshaped t ht, by simp [Token.piece, hclosed t ht], hother t ht⟩
  have hspells := (State.spells_start _).foldl_advance options.context hts (chained_tokenize text).1
    hfatal hrepairs
  exact hspells.written_tree options.context options.context.file hfinal

end Stylesheet
