import Stylesheet.Proofs.Parse.Printed
import Stylesheet.Proofs.Parse.Run

/-!
# Nothing is lost

The tree of a text prints the text again, without its byte order mark and with the delimiters that
were missing at its end (`text_of_parse`). A step of the parse adds the text of its token to what
has been printed (`State.prints_advance`), and the end of the text adds one brace for each block
that is open.
-/

namespace Stylesheet

namespace Parse

namespace State

variable {context : Context} {s s' : State} {t : Token} {ts : List Token}

/-- The state stays sound, and the text grows by what is written. -/
structure Prints (s s' : State) (written : String) : Prop where
  sound : s'.Sound
  text : s'.text = s.text ++ written

theorem Prints.trans {s'' : State} {written written' : String} (h : s.Prints s' written)
    (h' : s'.Prints s'' written') : s.Prints s'' (written ++ written') where
  sound := h'.sound
  text := by rw [h'.text, h.text, String.append_assoc]

/-! ## One step -/

theorem prints_addText (hs : s.Sound) (hnone : s.statement = none) (text : String) :
    s.Prints (s.addText text) text where
  sound := ⟨hs.settled, hs.shaped, hs.ended⟩
  text := by
    have hheld : (s.addText text).heldTokens = [] := heldTokens_none hnone
    have hadd : (s.addText text).scope.text = s.scope.text ++ text := Scope.text_addText _ _
    have hframes : (s.addText text).frames = s.frames := rfl
    rw [State.text, State.text, hadd, hheld, heldTokens_none hnone, hframes]
    simp [String.append_assoc]

theorem prints_hold (hs : s.Sound) (ht : t.Shaped) (hopen : s.ended = false) :
    s.Prints (s.hold t) t.kept where
  sound := by
    have hsettled := hs.settled
    have hshaped := hs.shaped
    obtain ⟨scope, frames, statement, ended, log⟩ := s
    cases statement with
    | none =>
      refine ⟨hsettled, ?_, fun h ↦ absurd (hopen.symm.trans h) Bool.false_ne_true⟩
      rintro statement ⟨⟩
      exact ht
    | some statement =>
      refine ⟨hsettled, ?_, fun h ↦ absurd (hopen.symm.trans h) Bool.false_ne_true⟩
      rintro _ ⟨⟩
      exact hshaped statement rfl
  text := by
    have hheld := congrArg keptText (heldTokens_hold s t)
    have hscope : (s.hold t).scope = s.scope := by
      unfold hold
      cases s.statement <;> rfl
    have hframes : (s.hold t).frames = s.frames := by
      unfold hold
      cases s.statement <;> rfl
    rw [State.text, State.text, hheld, hscope, hframes, keptText_append]
    simp [String.append_assoc]

theorem prints_addComment (hs : s.Sound) (ht : t.Shaped) (hopen : s.ended = false)
    (hkind : t.kind = .comment) : s.Prints (s.addComment context t) t.kept := by
  unfold addComment
  cases hstatement : s.statement with
  | some statement => exact prints_hold hs ht hopen
  | none =>
    have htext := Comment.addTo_ofToken s.scope.pending ht hkind
    have hnode := Node.text_leaf (context.source t.start)
      (.comment (Comment.ofToken s.scope.pending t))
    rw [Leaf.addTo, htext] at hnode
    refine ⟨⟨hs.settled.add_comment rfl, hs.shaped, hs.ended⟩, ?_⟩
    have hadd := Scope.text_add_comment s.scope
      (c := .leaf (context.source t.start) (.comment (Comment.ofToken s.scope.pending t))) rfl hnode
    have hheld : (s.addLeaf (context.source t.start)
        (.comment (Comment.ofToken s.scope.pending t))).heldTokens = [] :=
      heldTokens_none hstatement
    rw [State.text, State.text, hheld, heldTokens_none hstatement]
    simp only [addLeaf, hadd, keptText_nil, String.append_empty, String.append_assoc]

theorem addTo_blockHead (context : Context) (brace : Token) (hs : s.Sound) :
    (s.blockHead context brace).2.addTo "" = s.scope.pending ++ keptText s.heldTokens := by
  unfold blockHead
  cases hstatement : s.statement with
  | none =>
    rw [heldTokens_none hstatement]
    exact Selector.addTo_ofTokens _ _
  | some statement =>
    rw [heldTokens_some hstatement]
    dsimp only
    split
    · next hrule =>
      exact Prelude.addTo_ofTokens _ _ (hs.shaped statement hstatement) (eq_of_beq hrule)
    · exact Selector.addTo_ofTokens _ _

theorem prints_openBlock (context : Context) (brace : Token) (hs : s.Sound)
    (hopen : s.ended = false) :
    s.Prints (s.openBlock (s.blockHead context brace).1 (s.blockHead context brace).2) "\x7b" where
  sound := by
    refine ⟨rfl, ?_, fun h ↦ absurd (hopen.symm.trans h) Bool.false_ne_true⟩
    rintro statement ⟨⟩
  text := text_openBlock _ hs.settled (addTo_blockHead context brace hs)

theorem prints_conclude {statement : Statement} (context : Context) (hs : s.Sound)
    (hopen : s.ended = false) (hstatement : s.statement = some statement) :
    s.Prints ({ s with statement := none }.conclude context statement .semicolon) ";" where
  sound := by
    have hsettled : { s with statement := none : State }.scope.Settled := hs.settled
    refine ⟨settled_conclude context statement hsettled, ?_, ?_⟩
    · rw [conclude_eq]
      rintro statement ⟨⟩
    · rw [conclude_eq]
      exact fun h ↦ absurd (hopen.symm.trans h) Bool.false_ne_true
  text := by
    have hsettled : { s with statement := none : State }.scope.Settled := hs.settled
    have hscope := text_scope_conclude context .semicolon hsettled (hs.shaped statement hstatement)
    have hheld : ({ s with statement := none }.conclude context statement .semicolon).heldTokens =
        [] := by
      rw [conclude_eq]
      rfl
    have hframes : ({ s with statement := none }.conclude context statement .semicolon).frames =
        s.frames := by
      rw [conclude_eq]
    rw [State.text, State.text, hscope, heldTokens_some hstatement, hheld, hframes, endedText,
      if_pos rfl]
    simp [String.append_assoc]

theorem text_cut {ending : Ending} (context : Context) (hs : s.Sound)
    (hending : ending ≠ .semicolon) : (s.cut context ending).text = s.text := by
  have hscope := text_scope_cut context hs hending
  have hheld : (s.cut context ending).heldTokens = [] := by
    rw [cut_eq]
    rfl
  rw [State.text, State.text, hscope, hheld, frames_cut]
  simp [String.append_assoc]

theorem prints_closeBlock {frame : Frame} {frames : List Frame} (context : Context) (hs : s.Sound)
    (hopen : s.ended = false) (hframes : s.frames = frame :: frames) :
    s.Prints (s.cut context .closeCurly).closeBlock "\x7d" := by
  have hcut : (s.cut context .closeCurly).frames = frame :: frames := by
    rw [frames_cut, hframes]
  have hnone : (s.cut context .closeCurly).statement = none := by rw [cut_eq]
  have hended : (s.cut context .closeCurly).ended = false := by rw [cut_eq]; exact hopen
  obtain ⟨htext, hsettled⟩ := text_closeBlock hcut hnone
  have hclosed : (s.cut context .closeCurly).closeBlock.statement = none ∧
      (s.cut context .closeCurly).closeBlock.ended = false := by
    unfold closeBlock
    rw [hcut]
    exact ⟨hnone, hended⟩
  refine ⟨⟨hsettled, ?_, ?_⟩, ?_⟩
  · simp [hclosed.1]
  · simp [hclosed.2]
  · rw [htext, text_cut context hs (by decide)]

/-- A brace that closes nothing takes the statement with it. -/
theorem prints_ended (hs : s.Sound) (hframes : s.frames = []) (text : String) :
    s.Prints ({ s with statement := none, ended := true }.addText (keptText s.heldTokens ++ text))
      text where
  sound := ⟨hs.settled, by rintro statement ⟨⟩, fun _ ↦ ⟨hframes, rfl⟩⟩
  text := by
    have hadd := Scope.text_addText s.scope (keptText s.heldTokens ++ text)
    have hnone : keptText ({ s with statement := none, ended := true }.addText
        (keptText s.heldTokens ++ text)).heldTokens = "" := rfl
    rw [State.text, State.text, hnone]
    simp only [addText, hadd, String.append_empty, String.append_assoc]

/-- A token is printed as it is kept. Once the stylesheet has been ended, nothing is closed. -/
theorem prints_advance (context : Context) (hs : s.Sound) (ht : t.Shaped) :
    s.Prints (s.advance context t) (if (s.advance context t).ended then t.text else t.kept) := by
  cases hended : s.ended with
  | true =>
    have hadvance : s.advance context t = s.addText t.text := by rw [advance, hended, if_pos rfl]
    have hstill : (s.addText t.text).ended = true := hended
    rw [hadvance, hstill, if_pos rfl]
    exact prints_addText hs (hs.ended hended).2 t.text
  | false =>
    by_cases hcomment : t.kind = .comment
    · have hadvance : s.advance context t = s.addComment context t := by
        simp [advance, hended, hcomment]
      have hopen : (s.addComment context t).ended = false := by
        rw [← hended]
        unfold addComment hold
        cases s.statement <;> rfl
      rw [hadvance, hopen, if_neg Bool.false_ne_true]
      exact prints_addComment hs ht hended hcomment
    -- Any other token is kept as it is, whether the stylesheet is ended by it or not.
    have hkept : t.kept = t.text := Token.kept_of_kind_ne hcomment
    have hhold : s.Prints (s.hold t) t.text := hkept ▸ prints_hold hs ht hended
    have hopen : ¬s.ended = true := ne_true_of_eq_false hended
    rw [hkept, ite_self, advance, if_neg hopen]
    cases hkind : t.kind with
    | string | word | atWord | colon | other => exact hhold
    | comment => exact absurd hkind hcomment
    | space =>
      dsimp only
      unfold readSpace
      unfold hold at hhold
      cases hstatement : s.statement with
      | some statement =>
        rw [hstatement] at hhold
        exact hhold
      | none => exact prints_addText hs hstatement t.text
    | openCurly =>
      have htext : t.text = "\x7b" := ht.single '{' (by rw [hkind]; rfl)
      rw [htext]
      exact prints_openBlock context t hs hended
    | semicolon =>
      have htext : t.text = ";" := ht.single ';' (by rw [hkind]; rfl)
      cases hstatement : s.statement with
      | none => exact prints_addText hs hstatement t.text
      | some statement =>
        rw [htext]
        exact prints_conclude context hs hended hstatement
    | closeCurly =>
      have htext : t.text = "\x7d" := ht.single '}' (by rw [hkind]; rfl)
      cases hframes : s.frames with
      | nil =>
        have hprints := prints_ended hs hframes t.text
        rw [hframes] at hprints
        exact hprints
      | cons frame frames =>
        rw [htext]
        exact prints_closeBlock context hs hended hframes

/-! ## A whole run -/

theorem prints_foldl_advance (context : Context) (ts : List Token) (hs : s.Sound)
    (hts : ∀ t ∈ ts, t.Shaped) (hclosed : ∀ t ∈ ts, t.unclosed = false) :
    s.Prints (ts.foldl (advance context) s) (String.join (ts.map Token.text)) := by
  induction ts generalizing s with
  | nil => exact ⟨hs, String.append_empty.symm⟩
  | cons t ts ih =>
    obtain ⟨ht, hts⟩ := List.forall_mem_cons.mp hts
    obtain ⟨hfirst, hclosed⟩ := List.forall_mem_cons.mp hclosed
    have hstep := prints_advance context hs ht
    rw [Token.kept_of_closed hfirst, ite_self] at hstep
    rw [List.map_cons, String.join_cons]
    exact hstep.trans (ih hstep.sound hts hclosed)

end State

/-- What closes the comment that the text ends in, if it ends in one. -/
def commentEnd (ts : List Token) : String :=
  if ts.getLast?.any fun t ↦ t.kind == .comment && t.unclosed then "*/" else ""

def closers (blocks : Nat) : String :=
  String.ofList (List.replicate blocks '}')

theorem sound_start : ({} : State).Sound where
  settled := rfl
  shaped _ h := nomatch h
  ended h := nomatch h

theorem prints_reached (context : Context) (text : String) :
    let s := reached context (tokenize text)
    s.Sound ∧ s.text = withoutMark text ++ if s.ended then "" else commentEnd (tokenize text) := by
  have hshaped := shaped_of_mem_tokenize text
  have hclosed := unclosed_of_mem_dropLast_tokenize text
  rw [← join_tokenize]
  have hempty : ({} : State).text = "" := rfl
  obtain hnil | ⟨front, last, hts⟩ := List.eq_nil_or_concat (tokenize text)
  · rw [hnil]
    exact ⟨sound_start, rfl⟩
  · rw [List.concat_eq_append] at hts
    rw [hts] at hshaped hclosed ⊢
    have hfront := State.prints_foldl_advance context front sound_start
      (fun t ht ↦ hshaped t (List.mem_append_left _ ht)) fun t ht ↦ hclosed t (by simpa using ht)
    have hlast := State.prints_advance context hfront.sound (hshaped last (by simp))
    have hboth := hfront.trans hlast
    have hkept : last.kept = last.text ++ commentEnd (front ++ [last]) := by
      unfold Token.kept commentEnd
      rw [List.getLast?_concat]
      by_cases hopen : last.kind = .comment ∧ last.unclosed <;> simp [hopen]
    have hreached : reached context (front ++ [last]) =
        (front.foldl (State.advance context) {}).advance context last := by
      simp [reached]
    dsimp only
    rw [hreached]
    refine ⟨hboth.sound, ?_⟩
    rw [hboth.text, hempty]
    split <;> simp [hkept, String.append_assoc]

/-! ## The end of the text -/

theorem closers_succ (blocks : Nat) : closers (blocks + 1) = "\x7d" ++ closers blocks := by
  rw [closers, List.replicate_succ, String.ofList_cons]
  rfl

namespace State

/-- Each block that is closed prints its brace. -/
theorem text_foldl_closeBlock {s : State} {frames : List Frame} (hframes : s.frames = frames)
    (hnone : s.statement = none) :
    (frames.foldl (fun s _ ↦ s.closeBlock) s).scope.text = s.text ++ closers frames.length := by
  induction frames generalizing s with
  | nil =>
    have hempty : closers 0 = "" := rfl
    rw [State.text, hframes, heldTokens_none hnone, List.length_nil, hempty]
    simp [framesText]
  | cons frame frames ih =>
    have hclose : s.closeBlock.frames = frames ∧ s.closeBlock.statement = none := by
      unfold closeBlock
      rw [hframes]
      exact ⟨rfl, hnone⟩
    rw [List.foldl_cons, ih hclose.1 hclose.2, (text_closeBlock hframes hnone).1, List.length_cons,
      closers_succ, String.append_assoc]

theorem text_scope_conclusion {s : State} (context : Context) (hs : s.Sound) :
    (s.conclusion context).scope.text =
      s.text ++ if s.ended then "" else closers s.frames.length := by
  unfold conclusion
  cases hended : s.ended with
  | true =>
    obtain ⟨hframes, hnone⟩ := hs.ended hended
    rw [State.text, hframes, heldTokens_none hnone]
    simp [framesText]
  | false =>
    have hnone : (s.cut context .endOfText).statement = none := by rw [cut_eq]
    have hclosed := text_foldl_closeBlock (frames_cut context s .endOfText) hnone
    rw [text_cut context hs (by decide)] at hclosed
    rw [if_neg Bool.false_ne_true, closeAll, frames_cut, hclosed]
    rfl

end State

theorem text_treeOf (context : Context) (text : String) :
    let s := reached context (tokenize text)
    (treeOf context (tokenize text)).text =
      withoutMark text ++ if s.ended then ""
        else commentEnd (tokenize text) ++ closers s.frames.length := by
  obtain ⟨hsound, htext⟩ := prints_reached context text
  have hclosed := State.text_scope_conclusion context hsound
  apply hclosed.trans
  rw [htext]
  cases (reached context (tokenize text)).ended with
  | true => simp
  | false => exact String.append_assoc

end Parse

/-! ## Events -/

namespace Parse.State

variable {context : Context} {s : State} {t : Token} {ts : List Token}

theorem not_isClosing_of_mem_repairsIn {e : Event} (h : e ∈ s.repairsIn context ts) :
    e.isClosing = false := by
  obtain ⟨s, t, hrepair⟩ := exists_of_mem_repairsIn h
  obtain ⟨kind, rfl, _⟩ | ⟨rfl, _⟩ | ⟨position, text, rfl⟩ := eq_of_mem_repair? s t hrepair <;> rfl

theorem any_isStop_repairsIn (h : s.fatalIn? context ts = none) :
    (s.ended || (s.repairsIn context ts).any Event.isStop) =
      (ts.foldl (advance context) s).ended := by
  induction ts generalizing s with
  | nil => simp [repairsIn]
  | cons t ts ih =>
    obtain ⟨hfatal, hlater⟩ := Option.or_eq_none_iff.mp h
    have hrest := ih hlater
    rw [List.foldl_cons, ← hrest, ended_advance, repairsIn, hfatal]
    cases s.repair? t <;> simp [Bool.or_assoc]

theorem countP_isClosing_finalRepairs (s : State) :
    s.finalRepairs.countP Event.isClosing = if s.ended then 0 else s.frames.length := by
  have hcut : (s.cutRepair? .endOfText).toList.countP Event.isClosing = 0 := by
    cases hrepair : s.cutRepair? .endOfText with
    | none => rfl
    | some e =>
      obtain ⟨position, text, rfl⟩ := exists_of_mem_cutRepair? s .endOfText hrepair
      rfl
  have hframes : (s.frames.map fun frame ↦ Event.closingBlock frame.position).countP
      Event.isClosing = s.frames.length := by
    rw [List.countP_map]
    exact List.countP_eq_length.mpr fun frame _ ↦ rfl
  unfold finalRepairs
  split
  · rfl
  · rw [List.countP_append, hcut, hframes, Nat.zero_add]

theorem any_isStop_finalRepairs (s : State) : s.finalRepairs.any Event.isStop = false := by
  refine List.any_eq_false.mpr fun e he ↦ ?_
  unfold finalRepairs at he
  split at he
  · exact absurd he List.not_mem_nil
  · obtain hcut | hframe := List.mem_append.mp he
    · obtain ⟨position, text, rfl⟩ := exists_of_mem_cutRepair? s _ (Option.mem_toList.mp hcut)
      exact Bool.false_ne_true
    · obtain ⟨frame, _, rfl⟩ := List.mem_map.mp hframe
      exact Bool.false_ne_true

end Parse.State

/-! ## Strict parsing -/

namespace Parse

variable {context : Context} {ts : List Token}

theorem commentEnd_eq_empty (h : ∀ t ∈ ts, t.unclosed = false) : commentEnd ts = "" := by
  unfold commentEnd
  cases hlast : ts.getLast? with
  | none => rfl
  | some t => simp [h t (List.mem_of_getLast? hlast)]

/-- Where a strict parse succeeds, the text ends outside of blocks, and nothing is missing. -/
theorem closed_of_finalRefusal? (hts : ∀ t ∈ ts, t.Shaped)
    (hfatal : State.fatalIn? context {} ts = none) (hrepairs : State.repairsIn context {} ts = [])
    (hfinal : (reached context ts).finalRefusal? = none) :
    (reached context ts).ended = false ∧ (reached context ts).frames = [] ∧
      commentEnd ts = "" := by
  have hended : (reached context ts).ended = false := by
    have hstop := State.any_isStop_repairsIn hfatal
    rw [hrepairs] at hstop
    exact hstop.symm
  have hend := commentEnd_eq_empty (State.unclosed_of_repairsIn_eq_nil hts rfl hfatal hrepairs)
  exact ⟨hended, ((State.finalRefusal?_eq_none_iff_closed _ hended).mp hfinal).1, hend⟩

end Parse

/-! ## The text of the tree -/

open Parse

/-- A lenient parse reports each block that the end of the text closes. -/
theorem countP_isClosing_read (options : Options) (text : String) (hstrict : options.strict = false)
    (hfatal : State.fatalIn? options.context {} (tokenize text) = none) :
    (read options text).events.countP Event.isClosing =
      if (reached options.context (tokenize text)).ended then 0
      else (reached options.context (tokenize text)).frames.length := by
  have hfinal := State.countP_isClosing_finalRepairs (reached options.context (tokenize text))
  have hrepairs : (State.repairsIn options.context {} (tokenize text)).countP
      Event.isClosing = 0 :=
    List.countP_eq_zero.mpr fun e he ↦ by simp [State.not_isClosing_of_mem_repairsIn he]
  rw [read_lenient options text hstrict, hfatal]
  simp [start, Event.isClosing, hrepairs, hfinal]

theorem any_isStop_read (options : Options) (text : String) (hstrict : options.strict = false)
    (hfatal : State.fatalIn? options.context {} (tokenize text) = none) :
    (read options text).events.any Event.isStop =
      (reached options.context (tokenize text)).ended := by
  have hstop : (State.repairsIn options.context {} (tokenize text)).any Event.isStop =
      (reached options.context (tokenize text)).ended := State.any_isStop_repairsIn hfatal
  have hfinal := State.any_isStop_finalRepairs (reached options.context (tokenize text))
  rw [read_lenient options text hstrict, hfatal]
  simp [start, Event.isStop, hstop, hfinal]

/-- A text that is read without repairs is printed again as it is. -/
theorem text_treeOf_strict {context : Context} {text : String}
    (hfatal : State.fatalIn? context {} (tokenize text) = none)
    (hrepairs : State.repairsIn context {} (tokenize text) = [])
    (hfinal : (reached context (tokenize text)).finalRefusal? = none) :
    (treeOf context (tokenize text)).text = withoutMark text := by
  obtain ⟨hended, hframes, hend⟩ :=
    closed_of_finalRefusal? (shaped_of_mem_tokenize text) hfatal hrepairs hfinal
  rw [text_treeOf, hended, hend, hframes]
  exact String.append_empty

/-- The tree prints the text without its byte order mark. Where the stylesheet was not ended by a
brace that closes nothing, the end of an unclosed comment follows, and a brace for each block that
was open at the end of the text; as many are reported. Strict parsing adds nothing. -/
theorem text_of_parse (options : Options) (text : String) (tree : Tree)
    (h : parse options text = .ok tree) :
    ∃ s, (tokenize text).foldlM (State.step options.context)
        (start options.context text (tokenize text)) = .ok s ∧
      tree.text = withoutMark text ++
        (if s.ended then "" else commentEnd (tokenize text) ++ closers s.frames.length) ∧
      (read options text).events.any Event.isStop = s.ended ∧
      (read options text).events.countP Event.isClosing =
        (if s.ended then 0 else s.frames.length) ∧
      (options.strict = true → tree.text = withoutMark text) := by
  have htext := text_treeOf options.context text
  cases hstrict : options.strict with
  | false =>
    obtain ⟨hfatal, rfl⟩ := (parse_lenient_eq_ok_iff options text hstrict tree).mp h
    have hread := foldlM_start_lenient options.context text (tokenize text) hstrict
    rw [hfatal] at hread
    exact ⟨_, hread, htext, any_isStop_read options text hstrict hfatal,
      countP_isClosing_read options text hstrict hfatal, fun hnone ↦ nomatch hnone⟩
  | true =>
    obtain ⟨hfatal, hrepairs, hfinal, rfl⟩ :=
      (parse_strict_eq_ok_iff options text hstrict tree).mp h
    obtain ⟨hended, hframes, hend⟩ :=
      closed_of_finalRefusal? (shaped_of_mem_tokenize text) hfatal hrepairs hfinal
    have hread := foldlM_start_strict options.context text (tokenize text) hstrict
    rw [hfatal, hrepairs] at hread
    refine ⟨_, hread, htext, ?_, ?_, fun _ ↦ text_treeOf_strict hfatal hrepairs hfinal⟩
    · rw [read_strict options text hstrict, hfatal, hrepairs, hfinal]
      simp [start, Event.isStop, hended]
    · rw [read_strict options text hstrict, hfatal, hrepairs, hfinal]
      simp [start, Event.isClosing, hended, hframes]

theorem text_of_parse_unclosed_comment :
    ∃ tree, parse {} "a\x7bb: c/*d" = .ok tree ∧ tree.text = "a\x7bb: c/*d*/\x7d" := by
  cases h : parse {} "a\x7bb: c/*d" with
  | error e =>
    have hok : (parse {} "a\x7bb: c/*d").isOk = true := by decide +kernel
    rw [h] at hok
    contradiction
  | ok tree =>
    obtain ⟨s, _, htext, hstop, hclosing, _⟩ := text_of_parse {} "a\x7bb: c/*d" tree h
    have hopen : (read {} "a\x7bb: c/*d").events.any Event.isStop = false := by decide +kernel
    have hblocks : (read {} "a\x7bb: c/*d").events.countP Event.isClosing = 1 := by decide +kernel
    rw [← hstop, hopen, if_neg Bool.false_ne_true] at htext hclosing
    rw [← hclosing, hblocks] at htext
    exact ⟨tree, rfl, htext.trans (by decide +kernel)⟩

end Stylesheet
