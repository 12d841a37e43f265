import Stylesheet.Proofs.Parse.Continued
import Stylesheet.Proofs.Parse.Recorded
import Stylesheet.Proofs.Token.Chain

/-!
# Stylesheets one behind the other

Behind a stylesheet that ends with the brace of a block at its top, a parse stands where it stood at
the start, with nodes in front (`reached_of_closeCurly`). What comes next is read as a stylesheet by
itself: it fails for the same reason (`refusalIn?_append`), or the trees are put together
(`treeOf_append`), and their arenas with them (`parse_append`).
-/

namespace Stylesheet

namespace Parse

variable (context : Context)

/-! ## Outcomes -/

/-- What the parse of a text with these tokens fails with, in the mode of the context. -/
def refusalIn? (ts : List Token) : Option (ErrorKind × Position) :=
  if context.strict then
    (((State.repairsIn context {} ts).head?.bind Event.refusal?).or
      (State.fatalIn? context {} ts)).or (reached context ts).finalRefusal?
  else State.fatalIn? context {} ts

theorem parse_eq (options : Options) (text : String) :
    parse options text =
      match refusalIn? options.context (tokenize text) with
      | some (kind, position) => .error ⟨kind, position, text, options.file⟩
      | none => .ok (treeOf options.context (tokenize text)) := by
  unfold refusalIn?
  cases hstrict : options.strict with
  | true =>
    have hmode : options.context.strict = true := hstrict
    rw [parse, read_strict options text hstrict, if_pos hmode]
    cases ((State.repairsIn options.context {} (tokenize text)).head?.bind Event.refusal?).or
        (State.fatalIn? options.context {} (tokenize text)) |>.or
          (reached options.context (tokenize text)).finalRefusal? <;> rfl
  | false =>
    have hmode : ¬options.context.strict = true := by
      rw [show options.context.strict = false from hstrict]
      exact Bool.false_ne_true
    rw [parse, read_lenient options text hstrict, if_neg hmode]
    cases State.fatalIn? options.context {} (tokenize text) <;> rfl

theorem parse_eq_ok_iff {options : Options} {text : String} {tree : Tree} :
    parse options text = .ok tree ↔
      refusalIn? options.context (tokenize text) = none ∧
        treeOf options.context (tokenize text) = tree := by
  rw [parse_eq]
  cases refusalIn? options.context (tokenize text) <;> simp

theorem fatalIn?_of_refusalIn? {ts : List Token} (h : refusalIn? context ts = none) :
    State.fatalIn? context {} ts = none := by
  unfold refusalIn? at h
  split at h
  · exact (Option.or_eq_none_iff.mp (Option.or_eq_none_iff.mp h).1).2
  · exact h

/-! ## Behind a block at the top -/

namespace State

variable (s : State) (t : Token)

/-- A token opens a block, or closes the innermost one, or leaves the blocks as they are. -/
theorem frames_advance :
    (s.advance context t).frames = s.frames ∨ (s.advance context t).frames = s.frames.tail ∨
      ∃ source head, (s.advance context t).frames =
        ⟨source, head, { s.scope with pending := "", semicolon := false }⟩ :: s.frames := by
  have hhold : (s.hold t).frames = s.frames := by
    unfold hold
    cases s.statement <;> rfl
  unfold advance
  by_cases hended : s.ended = true
  · rw [if_pos hended]
    exact .inl rfl
  rw [if_neg hended]
  cases t.kind with
  | space =>
    refine .inl ?_
    dsimp only
    unfold readSpace
    cases s.statement <;> rfl
  | comment =>
    refine .inl ?_
    dsimp only
    unfold addComment
    cases s.statement with
    | none => rfl
    | some statement => exact hhold
  | openCurly => exact .inr (.inr ⟨_, _, rfl⟩)
  | semicolon =>
    refine .inl ?_
    dsimp only
    cases s.statement with
    | none => rfl
    | some statement =>
      dsimp only
      rw [conclude_eq]
  | closeCurly =>
    cases hframes : s.frames with
    | nil => exact .inl rfl
    | cons frame frames =>
      refine .inr (.inl ?_)
      dsimp only
      rw [frames_closeBlock, frames_cut, hframes]
  | string | word | atWord | colon | other => exact .inl hhold

/-- Around a block the last statement has no semicolon of its own. -/
theorem semicolon_of_mem_frames {s : State} (ts : List Token)
    (h : ∀ frame ∈ s.frames, frame.outer.semicolon = false) :
    ∀ frame ∈ (ts.foldl (advance context) s).frames, frame.outer.semicolon = false := by
  induction ts generalizing s with
  | nil => exact h
  | cons t ts ih =>
    apply ih
    rcases s.frames_advance context t with hframes | hframes | ⟨source, head, hframes⟩
    · rwa [hframes]
    · rw [hframes]
      exact fun frame hframe ↦ h frame (List.mem_of_mem_tail hframe)
    · rw [hframes]
      exact List.forall_mem_cons.mpr ⟨rfl, h⟩

theorem log_foldl_advance (s : State) (ts : List Token) :
    (ts.foldl (advance context) s).log = s.log := by
  induction ts generalizing s with
  | nil => rfl
  | cons t ts ih => rw [List.foldl_cons, ih, log_advance]

end State

variable {context} in
/-- Behind the brace of a block at the top nothing is left but the nodes. -/
theorem reached_of_closeCurly {front : List Token} {t : Token} (hkind : t.kind = .closeCurly)
    (hended : (reached context (front ++ [t])).ended = false)
    (hframes : (reached context (front ++ [t])).frames = []) :
    reached context (front ++ [t]) =
      { scope := { children := (treeOf context (front ++ [t])).rules.reverse } } := by
  have hlog : (reached context (front ++ [t])).log = [] := State.log_foldl_advance context {} _
  have hopen := ended_front hended
  have hsemicolon := State.semicolon_of_mem_frames context (s := {}) front (fun _ h ↦ nomatch h)
  have hstate : ∃ children, reached context (front ++ [t]) = { scope := { children } } := by
    rw [reached_concat] at hended hframes hlog ⊢
    change ∀ frame ∈ (reached context front).frames, _ at hsemicolon
    generalize reached context front = s at *
    cases hblocks : s.frames with
    | nil =>
      have hnot : ¬s.ended = true := ne_true_of_eq_false hopen
      rw [State.advance, if_neg hnot, hkind, hblocks] at hended
      contradiction
    | cons frame frames =>
      rw [State.advance_brace context hkind hopen hblocks] at hframes hlog ⊢
      have hcut := State.cut_eq context s .closeCurly
      rw [hblocks] at hcut hsemicolon
      rw [hcut] at hframes hlog ⊢
      unfold State.closeBlock at hframes hlog ⊢
      dsimp only at hframes hlog ⊢
      rw [hframes, hlog, hopen, Scope.add, hsemicolon frame List.mem_cons_self]
      exact ⟨_, rfl⟩
  obtain ⟨children, hstate⟩ := hstate
  have hrules : (treeOf context (front ++ [t])).rules = children.reverse := by
    rw [treeOf, hstate]
    rfl
  rw [hrules, List.reverse_reverse, hstate]

theorem repairsIn_append {s : State} {ts : List Token} (us : List Token)
    (h : s.fatalIn? context ts = none) :
    s.repairsIn context (ts ++ us) =
      s.repairsIn context ts ++ (ts.foldl (State.advance context) s).repairsIn context us := by
  induction ts generalizing s with
  | nil => rfl
  | cons t ts ih =>
    obtain ⟨hfirst, hlater⟩ := Option.or_eq_none_iff.mp h
    rw [List.cons_append, State.repairsIn, State.repairsIn, hfirst, ih hlater]
    simp

section

variable {context} {ts : List Token} (us : List Token) (offset : Nat) (start : Position)

section

variable (hstate : reached context ts =
  { scope := { children := (treeOf context ts).rules.reverse } })
include hstate

theorem reached_append_continued :
    reached context (ts ++ us.map (Token.continued offset start)) =
      (reached context us).continued offset start (treeOf context ts).rules.reverse := by
  have hstart : reached context ts =
      ({} : State).continued offset start (treeOf context ts).rules.reverse := hstate
  have hts : ts.foldl (State.advance context) {} = reached context ts := rfl
  rw [reached, List.foldl_append, hts, hstart, ← State.foldl_advance_continued]
  rfl

/-- A stylesheet fails behind another one where it fails by itself. -/
theorem refusalIn?_append (hnone : refusalIn? context ts = none) :
    refusalIn? context (ts ++ us.map (Token.continued offset start)) =
      (refusalIn? context us).map (Prod.map id start.continued) := by
  have hstart : ts.foldl (State.advance context) {} =
      ({} : State).continued offset start (treeOf context ts).rules.reverse := hstate
  have hfatal := fatalIn?_of_refusalIn? context hnone
  have hfatalIn : State.fatalIn? context {} (ts ++ us.map (Token.continued offset start)) =
      (State.fatalIn? context {} us).map (Prod.map id start.continued) := by
    rw [State.fatalIn?_append, hfatal, Option.none_or, hstart, State.fatalIn?_continued]
  unfold refusalIn? at hnone ⊢
  split at hnone
  · next hstrict =>
    obtain ⟨hfront, -⟩ := Option.or_eq_none_iff.mp hnone
    have hrepairs := (State.head?_repairsIn_eq_none_iff context {} ts).mp
      (Option.or_eq_none_iff.mp hfront).1
    have hrepairsIn : State.repairsIn context {} (ts ++ us.map (Token.continued offset start)) =
        (State.repairsIn context {} us).map (Event.continued start) := by
      rw [repairsIn_append context _ hfatal, hrepairs, List.nil_append, hstart,
        State.repairsIn_continued]
    have hfirst : ((State.repairsIn context {} us).map (Event.continued start)).head?.bind
        Event.refusal? = ((State.repairsIn context {} us).head?.bind Event.refusal?).map
          (Prod.map id start.continued) := by
      cases State.repairsIn context {} us with
      | nil => rfl
      | cons e events => exact Event.refusal?_continued start e
    rw [if_pos hstrict, if_pos hstrict, hfatalIn, hrepairsIn, hfirst,
      reached_append_continued us offset start hstate, State.finalRefusal?_continued, Option.map_or,
      Option.map_or]
  · next hstrict => rw [if_neg hstrict, if_neg hstrict, hfatalIn]

theorem treeOf_append (hsound : (reached context us).Sound) :
    treeOf context (ts ++ us.map (Token.continued offset start)) =
      (treeOf context ts).append (treeOf context us) start := by
  have hclosed : ((reached context us).conclusion context).frames = [] := by
    unfold State.conclusion
    cases hended : (reached context us).ended with
    | true => exact (hsound.ended hended).1
    | false => exact (State.closeAll_closed _).1
  rw [treeOf, reached_append_continued us offset start hstate, ← State.conclusion_continued,
    Tree.append, Node.continuedAll_eq]
  simp [State.tree, State.continued, hclosed, inFront, Scope.continued, treeOf]

end

end

end Parse

open Parse

/-- The run of a text that ends with a brace, closes all its blocks and is not ended by a brace
leaves nothing behind but nodes. -/
theorem reached_of_complete {options : Options} {text : String} {s : Tree}
    (hparse : parse options text = .ok s)
    (hevents : ∀ e ∈ (read options text).events, e.isClosing = false ∧ e.isStop = false)
    (hlast : ∃ t ∈ (tokenize text).getLast?, t.kind = .closeCurly) :
    reached options.context (tokenize text) = { scope := { children := s.rules.reverse } } := by
  obtain ⟨t, ht, hkind⟩ := hlast
  obtain ⟨front, hfront⟩ := List.getLast?_eq_some_iff.mp ht
  have hclosed : (reached options.context (tokenize text)).ended = false ∧
      (reached options.context (tokenize text)).frames = [] := by
    cases hstrict : options.strict with
    | true =>
      obtain ⟨hfatal, hrepairs, hfinal, -⟩ :=
        (parse_strict_eq_ok_iff options text hstrict s).mp hparse
      obtain ⟨hended, hframes, -⟩ :=
        closed_of_finalRefusal? (shaped_of_mem_tokenize text) hfatal hrepairs hfinal
      exact ⟨hended, hframes⟩
    | false =>
      obtain ⟨hfatal, -⟩ := (parse_lenient_eq_ok_iff options text hstrict s).mp hparse
      have hstop := any_isStop_read options text hstrict hfatal
      have hclosing := countP_isClosing_read options text hstrict hfatal
      have hended : (reached options.context (tokenize text)).ended = false := by
        rw [← hstop, List.any_eq_false]
        exact fun e he ↦ by simp [(hevents e he).2]
      have hnone : (read options text).events.countP Event.isClosing = 0 :=
        List.countP_eq_zero.mpr fun e he ↦ by simp [(hevents e he).1]
      rw [hnone, hended, if_neg Bool.false_ne_true] at hclosing
      exact ⟨hended, List.eq_nil_of_length_eq_zero hclosing.symm⟩
  have htree := (parse_eq_ok_iff.mp hparse).2
  rw [hfront] at hclosed htree ⊢
  rw [reached_of_closeCurly hkind hclosed.1 hclosed.2, htree]

/-- Behind a stylesheet that is complete and has no stray brackets every text is parsed as if it
stood by itself. The nodes of the second text come behind those of the first, with higher numbers
and places further on, and errors are found further on, too. -/
theorem parse_append {options : Options} {a b : String} {s : Tree}
    (hparse : parse options a = .ok s)
    (hevents : ∀ e ∈ (read options a).events, e.isClosing = false ∧ e.isStop = false)
    (hlast : ∃ t ∈ (tokenize a).getLast?, t.kind = .closeCurly)
    (hother : ∀ t ∈ tokenize a, t.kind ≠ .other) (hmark : b.toList.head? ≠ some '\uFEFF') :
    let stop := Position.behind (Text.stripMark a.toList)
    (∀ t, parse options b = .ok t → ∃ tree, parse options (a ++ b) = .ok tree ∧
      Arena.ofTree tree = (Arena.ofTree s).append (Arena.ofTree t) stop) ∧
    ∀ e, parse options b = .error e →
      parse options (a ++ b) =
        .error { e with position := stop.continued e.position, input := a ++ b } := by
  intro stop
  obtain ⟨hnone, htree⟩ := parse_eq_ok_iff.mp hparse
  have hstate := reached_of_complete hparse hevents hlast
  rw [← htree] at hstate
  have htokens := tokenize_append hother hlast hmark
  have hrefusal := refusalIn?_append (tokenize b) (Text.byteLength (Text.stripMark a.toList)) stop
    hstate hnone
  have happend := treeOf_append (tokenize b) (Text.byteLength (Text.stripMark a.toList)) stop
    hstate (prints_reached options.context b).1
  rw [← htokens] at hrefusal happend
  rw [parse_eq options b, parse_eq options (a ++ b), hrefusal, happend, htree]
  cases refusalIn? options.context (tokenize b) with
  | none =>
    refine ⟨fun t ht ↦ ⟨_, rfl, ?_⟩, fun e he ↦ nomatch he⟩
    rw [← Except.ok.inj ht, Arena.ofTree_append]
  | some refusal =>
    refine ⟨fun t ht ↦ (nomatch ht), fun e he ↦ ?_⟩
    rw [← Except.error.inj he]
    rfl

theorem parse_append_second_line :
    ∃ s t tree, parse { strict := true } "a\x7b\nb:c\x7d" = .ok s ∧
      parse { strict := true } "/**/@d;" = .ok t ∧
      parse { strict := true } ("a\x7b\nb:c\x7d" ++ "/**/@d;") = .ok tree ∧
      Arena.ofTree tree = (Arena.ofTree s).append (Arena.ofTree t) ⟨2, 5⟩ ∧
      (Arena.ofTree s).size = 2 ∧ (Arena.ofTree t).size = 2 := by
  have hs : ((parse { strict := true } "a\x7b\nb:c\x7d").toOption.map fun tree ↦
      (Arena.ofTree tree).size) = some 2 := by decide +kernel
  have ht : ((parse { strict := true } "/**/@d;").toOption.map fun tree ↦
      (Arena.ofTree tree).size) = some 2 := by decide +kernel
  have hevents : (read { strict := true } "a\x7b\nb:c\x7d").events.all fun e ↦
      !e.isClosing && !e.isStop := by decide +kernel
  have hlast : ((tokenize "a\x7b\nb:c\x7d").getLast?.map Token.kind) = some .closeCurly := by
    decide +kernel
  have hother : (tokenize "a\x7b\nb:c\x7d").all fun t ↦ t.kind ≠ .other := by decide +kernel
  obtain ⟨s, hs, hsize⟩ := exists_of_toOption hs
  obtain ⟨t, ht, hsize'⟩ := exists_of_toOption ht
  obtain ⟨brace, hbrace, hkind⟩ := Option.map_eq_some_iff.mp hlast
  obtain ⟨tree, htree, harena⟩ := (parse_append hs
    (fun e he ↦ by simpa using List.all_eq_true.mp hevents e he) ⟨brace, hbrace, hkind⟩
    (fun t ht ↦ by simpa using List.all_eq_true.mp hother t ht) (by decide)).1 t ht
  exact ⟨s, t, tree, hs, ht, htree, harena, hsize, hsize'⟩

end Stylesheet
