import Stylesheet.Proofs.Parse.Places
import Stylesheet.Proofs.Token.Tiling

/-!
# Where nodes are recorded

Each node of a parse starts with a token, and what is printed in front of the node is the text of
the tokens in front of that one (`State.Records.starts`). So the position that is recorded with the
node can be found by counting in the text (`recorded_of_parse`). No token starts two nodes, and
positions increase in the order in which nodes are made (`pairwise_of_parse`).
-/

namespace Stylesheet

/-- Where the source says that the node starts. -/
def Source.position (source : Source) : Position :=
  ⟨source.line, source.column⟩

namespace Parse

theorem Context.position_source (context : Context) (p : Position) :
    (context.source p).position = p := rfl

/-- The token is one of those read, and the text in front of it is `front`. -/
def StandsBehind (read : List Token) (front : String) (t : Token) : Prop :=
  ∃ before behind, read = before ++ t :: behind ∧ front.toList = textOf before

theorem StandsBehind.append {read : List Token} {front : String} {t : Token}
    (h : StandsBehind read front t) (later : List Token) :
    StandsBehind (read ++ later) front t := by
  obtain ⟨before, behind, rfl, hfront⟩ := h
  exact ⟨before, behind ++ later, by simp, hfront⟩

namespace State

variable {context : Context} {s : State} {t : Token} {read : List Token} {made : Option Place}

/-- Where the nodes start that have been made, and the one that has been started. -/
def starts (context : Context) (s : State) : List Source :=
  s.places.map Place.source ++
    (s.statement.map fun statement ↦ context.source statement.first.start).toList

/-- What is true of a parse that has come behind the tokens. -/
structure Records (context : Context) (s : State) (read : List Token) : Prop where
  order : (s.starts context).Sublist (read.map fun t ↦ context.source t.start)
  starts : ∀ place ∈ s.places, ∃ t, StandsBehind read place.lead t ∧
    place.source = context.source t.start
  suits : ∀ place ∈ s.places, place.opening.Suits place.within
  awaits : ∀ statement, s.statement = some statement →
    StandsBehind read s.printed statement.first ∧ statement.first.Named

theorem records_start (context : Context) : ({} : State).Records context [] where
  order := List.Sublist.refl []
  starts _ h := nomatch h
  suits _ h := nomatch h
  awaits _ h := nomatch h

/-! ## One step -/

/-- The tokens that are part of no node stand behind what is printed of the nodes. -/
theorem Records.first (h : s.Records context read) (hs : s.Sound)
    (htext : s.text.toList = textOf read) (hopen : s.ended = false) (ht : t.Shaped)
    (hfatal : s.fatal? t = none) :
    StandsBehind (read ++ [t]) s.printed (s.first t) ∧ (s.first t).Shaped ∧ (s.first t).Named := by
  cases hstatement : s.statement with
  | some statement =>
    obtain ⟨hbehind, hnamed⟩ := h.awaits statement hstatement
    rw [first_some hstatement]
    exact ⟨hbehind.append [t], hs.shaped statement hstatement, hnamed⟩
  | none =>
    have hnot : ¬s.ended = true := ne_true_of_eq_false hopen
    rw [first_none hstatement]
    refine ⟨⟨read, [], rfl, ?_⟩, ht, fun hkind hsign ↦ ?_⟩
    · rw [text_eq_printed, heldTokens_none hstatement] at htext
      simpa using htext
    · simp [fatal?, hnot, hkind, hstatement, hsign] at hfatal

/-- Where a statement has been started, its first token counts; where none has, `t` does. -/
theorem sublist_starts (context : Context) (s : State) (t : Token) :
    (s.places.map Place.source ++ [context.source (s.first t).start]).Sublist
      (s.starts context ++ [context.source t.start]) := by
  unfold starts
  cases hstatement : s.statement with
  | none =>
    rw [first_none hstatement]
    simp
  | some statement =>
    rw [first_some hstatement]
    exact List.sublist_append_left _ _

theorem Grows.starts {s' : State} (h : s.Grows context s' (s.first t) made) :
    (s'.starts context).Sublist (s.starts context ++ [context.source t.start]) := by
  have hplaces : s'.places.map Place.source =
      s.places.map Place.source ++ made.toList.map Place.source := by
    rw [h.places, List.map_append]
  apply List.Sublist.trans _ (sublist_starts context s t)
  unfold State.starts
  cases hnext : s'.statement with
  | some statement =>
    obtain ⟨rfl, hsame, -⟩ := h.holds statement hnext
    simp [hplaces, hsame]
  | none =>
    rw [hplaces, Option.map_none, Option.toList_none, List.append_nil]
    apply (List.Sublist.refl _).append
    cases made with
    | none => exact List.nil_sublist _
    | some place =>
      have hsource := (h.makes place rfl).source
      rw [← hsource]
      exact List.Sublist.refl _

theorem Records.grows {s' : State} (h : s.Records context read)
    (hgrows : s.Grows context s' (s.first t) made)
    (hfirst : StandsBehind (read ++ [t]) s.printed (s.first t)) (hnamed : (s.first t).Named) :
    s'.Records context (read ++ [t]) where
  order := by
    rw [List.map_append, List.map_singleton]
    exact hgrows.starts.trans (h.order.append (List.Sublist.refl _))
  starts := by
    intro place hplace
    cases hgrows.mem_places hplace with
    | inl hold =>
      obtain ⟨u, hbehind, hsource⟩ := h.starts place hold
      exact ⟨u, hbehind.append [t], hsource⟩
    | inr hmakes =>
      rw [← hmakes.lead] at hfirst
      exact ⟨s.first t, hfirst, hmakes.source⟩
  suits := by
    intro place hplace
    cases hgrows.mem_places hplace with
    | inl hold => exact h.suits place hold
    | inr hmakes => exact hmakes.suits
  awaits := by
    intro statement hstatement
    obtain ⟨-, hsame, hprinted⟩ := hgrows.holds statement hstatement
    rw [hsame, hprinted]
    exact ⟨hfirst, hnamed⟩

/-- Once the stylesheet has been ended, no more nodes are made. -/
theorem Records.ended (h : s.Records context read) (hs : s.Sound) (hended : s.ended = true) :
    (s.advance context t).Records context (read ++ [t]) := by
  have hnone : s.statement = none := (hs.ended hended).2
  rw [advance, if_pos hended]
  refine ⟨?_, ?_, h.suits, fun statement hstatement ↦
    absurd (hstatement.symm.trans hnone) (Option.some_ne_none statement)⟩
  · rw [List.map_append]
    exact h.order.trans (List.sublist_append_left _ _)
  · intro place hplace
    obtain ⟨u, hbehind, hsource⟩ := h.starts place hplace
    exact ⟨u, hbehind.append [t], hsource⟩

/-- Nodes that have been made stay where they are. -/
theorem Records.advance (h : s.Records context read) (hs : s.Sound)
    (htext : s.text.toList = textOf read) (ht : t.Shaped) (hfatal : s.fatal? t = none) :
    (s.advance context t).Records context (read ++ [t]) ∧
      s.places <+: (s.advance context t).places := by
  cases hended : s.ended with
  | true =>
    have hplaces : (s.advance context t).places = s.places := by
      rw [State.advance, if_pos hended]
      rfl
    exact ⟨h.ended hs hended, hplaces ▸ List.prefix_rfl⟩
  | false =>
    obtain ⟨hfirst, hshaped, hnamed⟩ := h.first hs htext hended ht hfatal
    obtain ⟨made, hgrows⟩ := grows_advance context hs hended hfatal hshaped hnamed
    exact ⟨h.grows hgrows hfirst hnamed, hgrows.places ▸ List.prefix_append _ _⟩

/-! ## A whole run -/

/-- Only the last token can be unclosed, so in front of every token the text of the tokens read is
what has been printed. -/
theorem foldl_advance_induction {motive : State → List Token → Prop} (context : Context)
    (step : ∀ s read t, motive s read → s.Sound → s.text.toList = textOf read → t.Shaped →
      s.fatal? t = none → motive (s.advance context t) (read ++ [t]))
    {ts : List Token} (h : motive s read) (hs : s.Sound)
    (htext : ts ≠ [] → s.text.toList = textOf read) (hts : ∀ t ∈ ts, t.Shaped)
    (hclosed : ∀ t ∈ ts.dropLast, t.unclosed = false) (hfatal : s.fatalIn? context ts = none) :
    motive (ts.foldl (State.advance context) s) (read ++ ts) := by
  induction ts generalizing s read with
  | nil => rwa [List.append_nil]
  | cons t ts ih =>
    obtain ⟨ht, hts⟩ := List.forall_mem_cons.mp hts
    obtain ⟨hfirst, hlater⟩ := Option.or_eq_none_iff.mp hfatal
    have hread : s.text.toList = textOf read := htext (List.cons_ne_nil t ts)
    have hprints := prints_advance context hs ht
    have hnext := ih (step s read t h hs hread ht hfirst) hprints.sound (fun hne ↦ ?_) hts
      (fun u hu ↦ ?_) hlater
    · rwa [List.append_assoc] at hnext
    · rw [List.dropLast_cons_of_ne_nil hne] at hclosed
      rw [Token.kept_of_closed (hclosed t List.mem_cons_self), ite_self] at hprints
      rw [hprints.text, String.toList_append, hread]
      simp
    · apply hclosed
      rw [List.dropLast_cons_of_ne_nil (List.ne_nil_of_mem (List.dropLast_subset ts hu))]
      exact List.mem_cons_of_mem t hu

end State

/-- What the start hands on to the first token, and every token to the next, holds at the end. -/
theorem reached_induction {motive : State → List Token → Prop} (context : Context) (text : String)
    (h : State.fatalIn? context {} (tokenize text) = none) (start : motive {} [])
    (step : ∀ s read t, motive s read → s.Sound → s.text.toList = textOf read → t.Shaped →
      s.fatal? t = none → motive (s.advance context t) (read ++ [t])) :
    motive (reached context (tokenize text)) (tokenize text) :=
  State.foldl_advance_induction context step start sound_start (fun _ ↦ rfl)
    (shaped_of_mem_tokenize text) (unclosed_of_mem_dropLast_tokenize text) h

theorem records_reached (context : Context) (text : String)
    (h : State.fatalIn? context {} (tokenize text) = none) :
    (reached context (tokenize text)).Records context (tokenize text) ∧
      ∀ front, front <+: tokenize text →
        (reached context front).places <+: (reached context (tokenize text)).places := by
  refine (reached_induction (motive := fun s read ↦ s = reached context read ∧
    s.Records context read ∧ ∀ front, front <+: read → (reached context front).places <+: s.places)
    context text h ⟨rfl, State.records_start context, ?_⟩ ?_).2
  · intro front hfront
    obtain rfl := List.prefix_nil.mp hfront
    exact List.prefix_rfl
  · rintro s read t ⟨rfl, hrecords, hfronts⟩ hs htext ht hfatal
    obtain ⟨hnext, hplaces⟩ := hrecords.advance hs htext ht hfatal
    have hread : (reached context read).advance context t = reached context (read ++ [t]) := by
      simp [reached]
    refine ⟨hread, hnext, fun front hfront ↦ ?_⟩
    obtain rfl | hearlier := List.prefix_concat_iff.mp hfront
    · exact hread ▸ List.prefix_rfl
    · exact (hfronts front hearlier).trans hplaces

/-! ## The tree -/

/-- The tree has the nodes that have been made, and the one that the end of the text makes. -/
theorem exists_places_treeOf (context : Context) (text : String)
    (h : State.fatalIn? context {} (tokenize text) = none) :
    ∃ made : Option Place, (treeOf context (tokenize text)).places =
        (reached context (tokenize text)).places ++ made.toList ∧
      ∀ place ∈ made, ∃ statement,
        (reached context (tokenize text)).statement = some statement ∧
          (reached context (tokenize text)).Makes context statement.first place := by
  obtain ⟨hsound, -⟩ := prints_reached context text
  have hrecords := (records_reached context text h).1
  exact State.places_conclusion context hsound
    (fun statement hstatement ↦ (hrecords.awaits statement hstatement).2) context.file

/-- The text in front of a node is that of the tokens in front of its first token, and no token is
the first of two nodes. -/
theorem records_treeOf (context : Context) (text : String)
    (h : State.fatalIn? context {} (tokenize text) = none) :
    ((treeOf context (tokenize text)).places.map Place.source).Sublist
        ((tokenize text).map fun t ↦ context.source t.start) ∧
      ∀ place ∈ (treeOf context (tokenize text)).places, place.opening.Suits place.within ∧
        ∃ t, StandsBehind (tokenize text) place.lead t ∧
          place.source = context.source t.start := by
  have hrecords := (records_reached context text h).1
  obtain ⟨made, hplaces, hmakes⟩ := exists_places_treeOf context text h
  rw [hplaces]
  refine ⟨?_, fun place hplace ↦ ?_⟩
  · have hmade : (made.toList.map Place.source).Sublist
        ((reached context (tokenize text)).statement.map fun statement ↦
          context.source statement.first.start).toList := by
      cases made with
      | none => exact List.nil_sublist _
      | some place =>
        obtain ⟨statement, hstatement, hmade⟩ := hmakes place rfl
        simp [hstatement, hmade.source]
    rw [List.map_append]
    exact ((List.Sublist.refl _).append hmade).trans hrecords.order
  · rw [List.mem_append, Option.mem_toList] at hplace
    cases hplace with
    | inl hold => exact ⟨hrecords.suits place hold, hrecords.starts place hold⟩
    | inr hlast =>
      obtain ⟨statement, hstatement, hmade⟩ := hmakes place hlast
      have hbehind := (hrecords.awaits statement hstatement).1
      rw [← hmade.lead] at hbehind
      exact ⟨hmade.suits, _, hbehind, hmade.source⟩

end Parse

/-! ## Parsing -/

open Parse

variable {options : Options} {text : String} {tree : Tree}

/-- In either mode the tree is that of the tokens, none of which ends every parse. -/
theorem treeOf_of_parse (h : parse options text = .ok tree) :
    State.fatalIn? options.context {} (tokenize text) = none ∧
      treeOf options.context (tokenize text) = tree := by
  cases hstrict : options.strict with
  | false => exact (parse_lenient_eq_ok_iff options text hstrict tree).mp h
  | true =>
    obtain ⟨hfatal, -, -, htree⟩ := (parse_strict_eq_ok_iff options text hstrict tree).mp h
    exact ⟨hfatal, htree⟩

theorem exists_of_toOption {β : Type} {f : Tree → β} {b : β}
    (h : (parse options text).toOption.map f = some b) :
    ∃ tree, parse options text = .ok tree ∧ f tree = b := by
  cases hparse : parse options text with
  | error e => simp [hparse, Except.toOption] at h
  | ok tree =>
    rw [hparse] at h
    exact ⟨tree, rfl, Option.some.inj h⟩

/-- The nodes that have been made of the first tokens are the first nodes of the tree, so the number
of a node is the number of those made before it. -/
theorem prefix_of_parse (h : parse options text = .ok tree) {front : List Token}
    (hfront : front <+: tokenize text) :
    (reached options.context front).places <+: tree.places := by
  obtain ⟨hfatal, rfl⟩ := treeOf_of_parse h
  obtain ⟨made, hplaces, -⟩ := exists_places_treeOf options.context text hfatal
  rw [hplaces]
  exact ((records_reached options.context text hfatal).2 front hfront).trans
    (List.prefix_append _ _)

/-- Nodes are recorded one behind the other. -/
theorem pairwise_of_parse (h : parse options text = .ok tree) :
    tree.places.Pairwise fun p q ↦ compare p.source.position q.source.position = .lt := by
  obtain ⟨hfatal, rfl⟩ := treeOf_of_parse h
  have hsublist := (records_treeOf options.context text hfatal).1
  have htokens := (Cursor.ofString text).pairwise_tokens
  have hsources : ((tokenize text).map fun t ↦ options.context.source t.start).Pairwise
      fun a b ↦ compare a.position b.position = .lt :=
    List.pairwise_map.mpr htokens
  exact List.pairwise_map.mp (hsources.sublist hsublist)

/-- What is printed in front of a node is the front of the text, and the node is recorded where it
ends. -/
theorem recorded_of_parse (h : parse options text = .ok tree) (place : Place)
    (hplace : place ∈ tree.places) :
    (∃ rest, withoutMark text = place.lead ++ rest) ∧
      place.source.position = Position.behind place.lead.toList := by
  obtain ⟨hfatal, rfl⟩ := treeOf_of_parse h
  obtain ⟨-, t, ⟨front, behind, hts, hlead⟩, hsource⟩ :=
    (records_treeOf options.context text hfatal).2 place hplace
  have hfollow := follows_tokenize hts
  constructor
  · refine ⟨String.ofList (textOf (t :: behind)), ?_⟩
    rw [← toList_textOf_tokenize, hts, textOf_append, ← hlead, String.ofList_append,
      String.ofList_toList]
  · rw [hsource, Context.position_source, hfollow.start, hlead]
    exact Position.advance_eq_behind _

theorem suits_of_parse (h : parse options text = .ok tree) (place : Place)
    (hplace : place ∈ tree.places) : place.opening.Suits place.within := by
  obtain ⟨hfatal, rfl⟩ := treeOf_of_parse h
  exact ((records_treeOf options.context text hfatal).2 place hplace).1

end Stylesheet
