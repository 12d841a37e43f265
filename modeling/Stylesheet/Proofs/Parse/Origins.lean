import Stylesheet.Proofs.Parse.Recorded

/-!
# What nodes are read from

Each node is read from a stretch of tokens, or its front is if it has a block
(`Opening.ReadFrom`). What is printed in front of the node is the text of the tokens in front of
that stretch (`Place.ReadIn`). This is so when the node is made and stays so
(`State.Traces.advance`), hence for all nodes of the tree (`readIn_of_parse`).
-/

namespace Stylesheet

/-- The node says what is read from the tokens. -/
inductive Opening.ReadFrom : Opening → List Token → Prop
  | comment {before : String} {t : Token} (kind : t.kind = .comment) :
      ReadFrom (.leaf (.comment (Comment.ofToken before t))) [t]
  | declaration {before : String} {ts : List Token} {d : Declaration}
      (h : Declaration.ofTokens? before ts = some d) : ReadFrom (.leaf (.declaration d)) ts
  | property {before : String} {ts : List Token} :
      ReadFrom (.leaf (.declaration (Declaration.ofProperty before ts))) ts
  | statement {before : String} {t : Token} {ts : List Token} (kind : t.kind = .atWord) :
      ReadFrom (.leaf (.statement (Prelude.ofTokens before t ts))) (t :: ts)
  | rule {before : String} {ts : List Token} (first : ∀ t ∈ ts.head?, t.kind ≠ .space) :
      ReadFrom (.block (.rule (Selector.ofTokens before ts))) ts
  | atRule {before : String} {t : Token} {ts : List Token} {body : BodyKind}
      (kind : t.kind = .atWord) :
      ReadFrom (.block (.atRule (Prelude.ofTokens before t ts) body)) (t :: ts)

/-- The node is read from some of the tokens and has the text of those in front of it. -/
def Place.ReadIn (place : Place) (read : List Token) : Prop :=
  ∃ before ts behind, read = before ++ ts ++ behind ∧ place.lead.toList = textOf before ∧
    place.opening.ReadFrom ts

theorem Place.ReadIn.append {place : Place} {read : List Token} (h : place.ReadIn read)
    (later : List Token) : place.ReadIn (read ++ later) := by
  obtain ⟨before, ts, behind, rfl, hlead, hfrom⟩ := h
  exact ⟨before, ts, behind ++ later, by simp, hlead, hfrom⟩

namespace Parse

namespace State

variable {context : Context} {s : State} {t : Token} {read : List Token} {place : Place}
variable {statement : Statement} {ending : Ending} {leaf : Leaf}

/-! ## Nodes that are made -/

theorem readFrom_leaf? (h : s.leaf? statement ending = some leaf) :
    (Opening.leaf leaf).ReadFrom statement.tokens := by
  unfold leaf? at h
  split at h
  · split at h
    · next d hd =>
      obtain rfl := Option.some.inj h
      exact .declaration hd
    · split at h
      · obtain rfl := Option.some.inj h
        exact .property
      · contradiction
  · split at h
    · next hrule =>
      obtain rfl := Option.some.inj h
      exact .statement (eq_of_beq hrule)
    · contradiction

theorem readFrom_blockHead (context : Context) (brace : Token)
    (hfirst : ∀ statement, s.statement = some statement → statement.first.kind ≠ .space) :
    (Opening.block (s.blockHead context brace).2).ReadFrom s.heldTokens := by
  unfold blockHead
  cases hstatement : s.statement with
  | none =>
    rw [heldTokens_none hstatement]
    exact .rule fun _ h ↦ nomatch h
  | some statement =>
    rw [heldTokens_some hstatement]
    dsimp only
    split
    · next hrule => exact .atRule (eq_of_beq hrule)
    · refine .rule fun t ht ↦ ?_
      obtain rfl := Option.some.inj ht
      exact hfirst statement hstatement

theorem mem_places_conclude (context : Context) (hs : s.scope.Settled)
    (h : place ∈ (s.conclude context statement ending).places) :
    place ∈ s.places ∨ place.opening.ReadFrom statement.tokens := by
  rw [(places_conclude context statement ending hs).1, List.mem_append, Option.mem_toList] at h
  refine h.imp_right fun hmade ↦ ?_
  obtain ⟨leaf, hleaf, rfl⟩ := Option.map_eq_some_iff.mp hmade
  exact readFrom_leaf? hleaf

/-- A statement that is cut off leaves its white space behind. -/
theorem mem_places_cut (context : Context) (ending : Ending) (hs : s.scope.Settled) :
    (s.cut context ending).scope.Steady ∧ ∀ place ∈ (s.cut context ending).places,
      place ∈ s.places ∨
        ∃ ts behind, s.heldTokens = ts ++ behind ∧ place.opening.ReadFrom ts := by
  unfold cut
  cases hstatement : s.statement with
  | none => exact ⟨hs.steady, fun place hplace ↦ .inl hplace⟩
  | some statement =>
    have hsettled : { s with statement := none : State }.scope.Settled := hs
    refine ⟨(places_conclude context statement.splitSpace.1 ending hsettled).2,
      fun place hplace ↦ ?_⟩
    refine (mem_places_conclude context hsettled hplace).imp_right fun hfrom ↦ ?_
    rw [heldTokens_some hstatement, ← Statement.tokens_splitSpace statement]
    exact ⟨_, _, rfl, hfrom⟩

theorem mem_places_conclusion (context : Context) (hs : s.Sound) (file : Option String)
    (h : place ∈ ((s.conclusion context).tree file).places) :
    place ∈ s.places ∨ ∃ ts behind, s.heldTokens = ts ++ behind ∧ place.opening.ReadFrom ts := by
  unfold conclusion at h
  cases hended : s.ended with
  | true =>
    rw [hended, if_pos rfl, places_tree (hs.ended hended).1 hs.settled.steady] at h
    exact .inl h
  | false =>
    obtain ⟨hsteady, hcut⟩ := mem_places_cut context .endOfText hs.settled
    obtain ⟨hclosed, hstill⟩ := places_closeAll rfl hsteady
    rw [hended, if_neg Bool.false_ne_true, places_tree (closeAll_closed _).1 hstill, hclosed] at h
    exact hcut place h

/-! ## One step -/

/-- The node that a token makes is read from the statement and the token, or from fewer of
these. -/
theorem mem_places_advance (context : Context) (hs : s.Sound)
    (hfirst : ∀ statement, s.statement = some statement → statement.first.kind ≠ .space)
    (h : place ∈ (s.advance context t).places) :
    place ∈ s.places ∨
      ∃ ts behind, s.heldTokens ++ [t] = ts ++ behind ∧ place.opening.ReadFrom ts := by
  have hhold : (s.hold t).places = s.places := by
    have hgrows := (grows_hold context s t).places
    rwa [Option.toList_none, List.append_nil] at hgrows
  unfold State.advance at h
  split at h
  · exact .inl h
  cases hkind : t.kind <;> simp only [hkind] at h
  case string | word | atWord | colon | other => exact .inl (hhold ▸ h)
  case space =>
    have hspace := (grows_readSpace context s t).places
    rw [Option.toList_none, List.append_nil] at hspace
    exact .inl (hspace ▸ h)
  case comment =>
    unfold addComment at h
    cases hstatement : s.statement with
    | some statement =>
      simp only [hstatement] at h
      exact .inl (hhold ▸ h)
    | none =>
      simp only [hstatement, places_addLeaf, List.mem_append, List.mem_singleton] at h
      refine h.imp_right ?_
      rintro rfl
      rw [heldTokens_none hstatement]
      exact ⟨[t], [], rfl, .comment hkind⟩
  case openCurly =>
    simp only [places_openBlock, List.mem_append, List.mem_singleton] at h
    refine h.imp_right ?_
    rintro rfl
    exact ⟨s.heldTokens, [t], rfl, readFrom_blockHead context t hfirst⟩
  case semicolon =>
    cases hstatement : s.statement with
    | none =>
      simp only [hstatement] at h
      exact .inl h
    | some statement =>
      simp only [hstatement] at h
      have hsettled : { s with statement := none : State }.scope.Settled := hs.settled
      refine (mem_places_conclude context hsettled h).imp_right fun hfrom ↦ ?_
      rw [heldTokens_some hstatement]
      exact ⟨statement.tokens, [t], rfl, hfrom⟩
  case closeCurly =>
    cases hframes : s.frames with
    | nil =>
      have hsame : s.places = { s with frames := [] }.places := by rw [← hframes]
      simp only [hframes] at h
      exact .inl (hsame ▸ h)
    | cons frame frames =>
      obtain ⟨hsteady, hcut⟩ := mem_places_cut context .closeCurly hs.settled
      simp only [hframes, (places_closeBlock hsteady).1] at h
      refine (hcut place h).imp_right ?_
      rintro ⟨ts, behind, hheld, hfrom⟩
      exact ⟨ts, behind ++ [t], by simp [hheld], hfrom⟩

/-- A statement that is not ended by the token goes on with it or starts with it. -/
theorem tokens_advance (context : Context) (hopen : s.ended = false)
    (h : (s.advance context t).statement = some statement) :
    statement.tokens = s.heldTokens ++ [t] ∧ (s.statement = none → t.kind ≠ .space) := by
  have hhold : (s.hold t).statement = some statement →
      statement.tokens = s.heldTokens ++ [t] := by
    intro hstatement
    rw [← heldTokens_some hstatement, heldTokens_hold]
  unfold State.advance at h
  rw [hopen, if_neg Bool.false_ne_true] at h
  cases hkind : t.kind <;> simp only [hkind] at h
  case string | word | atWord | colon | other => exact ⟨hhold h, by simp⟩
  case space =>
    unfold readSpace at h
    unfold hold at hhold
    cases hbefore : s.statement with
    | none => simp [hbefore, addText] at h
    | some before =>
      rw [hbefore] at h hhold
      exact ⟨hhold h, by simp⟩
  case comment =>
    unfold addComment at h
    cases hbefore : s.statement with
    | none => simp [hbefore, addLeaf] at h
    | some before =>
      rw [hbefore] at h
      exact ⟨hhold h, by simp⟩
  case openCurly => simp [openBlock] at h
  case semicolon =>
    cases hbefore : s.statement with
    | none => simp [hbefore, addText] at h
    | some before =>
      simp only [hbefore] at h
      rw [conclude_eq] at h
      contradiction
  case closeCurly =>
    cases hframes : s.frames with
    | nil => simp [hframes, addText] at h
    | cons frame frames =>
      simp only [hframes] at h
      rw [statement_closeBlock, cut_eq] at h
      contradiction

/-- What is true of a parse that has come behind the tokens. -/
structure Traces (context : Context) (s : State) (read : List Token) : Prop where
  records : s.Records context read
  places : ∀ place ∈ s.places, place.ReadIn read
  holds : ∀ statement, s.statement = some statement → statement.first.kind ≠ .space ∧
    ∃ before, read = before ++ statement.tokens ∧ s.printed.toList = textOf before

theorem traces_start (context : Context) : ({} : State).Traces context [] where
  records := records_start context
  places _ h := nomatch h
  holds _ h := nomatch h

/-- The statement that has been started ends the tokens read, and where none has, they have all
been printed. -/
theorem Traces.held (h : s.Traces context read) (htext : s.text.toList = textOf read) :
    ∃ before, read = before ++ s.heldTokens ∧ s.printed.toList = textOf before := by
  cases hstatement : s.statement with
  | some statement =>
    rw [heldTokens_some hstatement]
    exact (h.holds statement hstatement).2
  | none =>
    rw [text_eq_printed, heldTokens_none hstatement] at htext
    rw [heldTokens_none hstatement]
    exact ⟨read, (List.append_nil read).symm, by simpa using htext⟩

theorem Traces.advance (h : s.Traces context read) (hs : s.Sound)
    (htext : s.text.toList = textOf read) (ht : t.Shaped) (hfatal : s.fatal? t = none) :
    (s.advance context t).Traces context (read ++ [t]) := by
  have hrecords := (h.records.advance hs htext ht hfatal).1
  cases hended : s.ended with
  | true =>
    have hnone : s.statement = none := (hs.ended hended).2
    have hadvance : s.advance context t = s.addText t.text := by
      rw [State.advance, if_pos hended]
    rw [hadvance] at hrecords ⊢
    refine ⟨hrecords, fun place hplace ↦ (h.places place hplace).append [t], ?_⟩
    intro statement hstatement
    rw [addText, hnone] at hstatement
    contradiction
  | false =>
    obtain ⟨before, hread, hprinted⟩ := h.held htext
    obtain ⟨-, hshaped, hnamed⟩ := h.records.first hs htext hended ht hfatal
    obtain ⟨made, hgrows⟩ := grows_advance context hs hended hfatal hshaped hnamed
    have hfirst : ∀ statement, s.statement = some statement → statement.first.kind ≠ .space :=
      fun statement hstatement ↦ (h.holds statement hstatement).1
    refine ⟨hrecords, fun place hplace ↦ ?_, fun statement hstatement ↦ ?_⟩
    · by_cases hold : place ∈ s.places
      · exact (h.places place hold).append [t]
      · have hlead := ((hgrows.mem_places hplace).resolve_left hold).lead
        obtain ⟨ts, behind, hheld, hfrom⟩ :=
          (mem_places_advance context hs hfirst hplace).resolve_left hold
        refine ⟨before, ts, behind, ?_, hlead ▸ hprinted, hfrom⟩
        rw [hread, List.append_assoc, hheld, List.append_assoc]
    · obtain ⟨-, hsame, hstill⟩ := hgrows.holds statement hstatement
      obtain ⟨htokens, hspace⟩ := tokens_advance context hended hstatement
      refine ⟨?_, before, ?_, hstill ▸ hprinted⟩
      · rw [hsame]
        cases hbefore : s.statement with
        | none =>
          rw [first_none hbefore]
          exact hspace hbefore
        | some held =>
          rw [first_some hbefore]
          exact hfirst held hbefore
      · rw [htokens, hread, List.append_assoc]

end State

/-! ## A whole run -/

theorem traces_reached (context : Context) (text : String)
    (h : State.fatalIn? context {} (tokenize text) = none) :
    (reached context (tokenize text)).Traces context (tokenize text) :=
  reached_induction context text h (State.traces_start context)
    fun _ _ _ h hs htext ht hfatal ↦ h.advance hs htext ht hfatal

end Parse

open Parse

variable {options : Options} {text : String} {tree : Tree}

/-- Each node of a parsed text is read from its tokens. -/
theorem readIn_of_parse (h : parse options text = .ok tree) (place : Place)
    (hplace : place ∈ tree.places) : place.ReadIn (tokenize text) := by
  obtain ⟨hfatal, rfl⟩ := treeOf_of_parse h
  obtain ⟨hsound, -⟩ := prints_reached options.context text
  have htraces := traces_reached options.context text hfatal
  obtain ⟨made, hplaces, hmakes⟩ := exists_places_treeOf options.context text hfatal
  by_cases hold : place ∈ (reached options.context (tokenize text)).places
  · exact htraces.places place hold
  · have hmem := hplace
    rw [hplaces, List.mem_append, Option.mem_toList] at hmem
    obtain ⟨statement, hstatement, hmade⟩ := hmakes place (hmem.resolve_left hold)
    obtain ⟨-, before, hread, hprinted⟩ := htraces.holds statement hstatement
    obtain ⟨ts, behind, hheld, hfrom⟩ :=
      (State.mem_places_conclusion options.context hsound _ hplace).resolve_left hold
    rw [State.heldTokens_some hstatement] at hheld
    refine ⟨before, ts, behind, ?_, hmade.lead ▸ hprinted, hfrom⟩
    rw [hread, hheld, List.append_assoc]

end Stylesheet
