import Stylesheet.Proofs.Parse.Run

/-!
# Strict and lenient parsing

Both modes read a text in the same way up to the first repair. Strict parsing refuses it, with the
kind and the position that the repair is reported with; where nothing is repaired, the results are
the same (`strict_of_lenient`).

The end of the text is the one place where the order of the reports is not that of the refusals: a
block that is still open is refused before the statement is looked at, and repaired after it.
-/

namespace Stylesheet

open Parse

/-- What is reported while tokens are being read. -/
def readingEvents (options : Options) (text : String) : List Event :=
  let context := options.context
  match (tokenize text).foldlM (State.step context) (start context text (tokenize text)) with
  | .ok s => s.log.reverse
  | .error failure => failure.log.reverse

namespace Parse.State

variable {context : Context} {s : State} {ts : List Token}

/-- The mode plays no part in what a step does. -/
theorem advance_mode (strict strict' : Bool) (file : Option String) :
    advance ⟨strict, file⟩ = advance ⟨strict', file⟩ := rfl

theorem fatalIn?_mode (strict strict' : Bool) (file : Option String) (s : State) (ts : List Token) :
    s.fatalIn? ⟨strict, file⟩ ts = s.fatalIn? ⟨strict', file⟩ ts := by
  induction ts generalizing s with
  | nil => rfl
  | cons t ts ih => rw [fatalIn?, fatalIn?, advance_mode strict strict', ih]

theorem repairsIn_mode (strict strict' : Bool) (file : Option String) (s : State)
    (ts : List Token) : s.repairsIn ⟨strict, file⟩ ts = s.repairsIn ⟨strict', file⟩ ts := by
  induction ts generalizing s with
  | nil => rfl
  | cons t ts ih => rw [repairsIn, repairsIn, advance_mode strict strict', ih]

/-- The kinds of errors that stand for the repairs made while tokens are being read. -/
def readingKinds : List ErrorKind :=
  [.unclosedQuote, .unclosedComment, .unexpectedCloseBrace, .missingPropertyValue]

theorem exists_refusal_of_mem_repairsIn {e : Event} (h : e ∈ s.repairsIn context ts) :
    ∃ kind position, e.refusal? = some (kind, position) ∧ kind ∈ readingKinds := by
  obtain ⟨s, t, hrepair⟩ := exists_of_mem_repairsIn h
  obtain ⟨kind, rfl, hkind⟩ | ⟨rfl, _⟩ | ⟨position, text, rfl⟩ := eq_of_mem_repair? s t hrepair
  · refine ⟨kind, t.start, rfl, ?_⟩
    rcases hkind with rfl | rfl <;> decide
  · exact ⟨_, _, rfl, by decide⟩
  · exact ⟨_, _, rfl, by decide⟩

/-- Of the repairs at the end of the text, strict parsing refuses the first block that is closed, or
else the first repair. -/
theorem finalRefusal?_eq (s : State) :
    s.finalRefusal? =
      ((s.finalRepairs.find? Event.isClosing).or s.finalRepairs.head?).bind Event.refusal? := by
  unfold finalRefusal? finalRepairs
  cases s.ended with
  | true => rfl
  | false =>
    have hcut : (s.cutRepair? .endOfText).toList.find? Event.isClosing = none := by
      cases hrepair : s.cutRepair? .endOfText with
      | none => rfl
      | some e =>
        obtain ⟨position, text, rfl⟩ := exists_of_mem_cutRepair? s .endOfText hrepair
        rfl
    rw [if_neg Bool.false_ne_true, if_neg Bool.false_ne_true, List.find?_append, hcut]
    cases s.frames with
    | nil => cases s.cutRepair? .endOfText <;> rfl
    | cons frame frames => rfl

theorem exists_of_mem_finalRepairs {e : Event} (h : e ∈ s.finalRepairs) :
    (∃ position, e = .closingBlock position) ∨ ∃ position text, e = .keepingText position text := by
  unfold finalRepairs at h
  split at h
  · exact absurd h List.not_mem_nil
  · obtain hcut | hframe := List.mem_append.mp h
    · exact .inr (exists_of_mem_cutRepair? s _ (Option.mem_toList.mp hcut))
    · obtain ⟨frame, _, rfl⟩ := List.mem_map.mp hframe
      exact .inl ⟨_, rfl⟩

/-- What strict parsing refuses at the end of a text that calls for repairs there alone. -/
theorem exists_finalRefusal {s : State} (h : s.finalRepairs ≠ []) :
    ∃ kind position, s.finalRefusal? = some (kind, position) ∧ kind.isRecoverable = true ∧
      (∀ e, s.finalRepairs.find? Event.isClosing = some e →
        e = .closingBlock position ∧ kind = .unclosedBlock) ∧
      (s.finalRepairs.find? Event.isClosing = none → kind = .missingPropertyValue ∧
        ∃ kept, s.finalRepairs.find? Event.isRepair = some (.keepingText position kept)) := by
  obtain ⟨e, events, hfinals⟩ := List.exists_cons_of_ne_nil h
  rw [finalRefusal?_eq]
  cases hfind : s.finalRepairs.find? Event.isClosing with
  | some e' =>
    have hclosing := List.find?_some hfind
    obtain ⟨position, rfl⟩ | ⟨position, kept, rfl⟩ :=
      exists_of_mem_finalRepairs (List.mem_of_find?_eq_some hfind)
    · refine ⟨.unclosedBlock, position, rfl, rfl, fun e he ↦ ?_, fun hnone ↦ (nomatch hnone)⟩
      exact ⟨(Option.some.inj he).symm, rfl⟩
    · contradiction
  | none =>
    obtain ⟨position, rfl⟩ | ⟨position, kept, rfl⟩ :=
      exists_of_mem_finalRepairs (s := s) (e := e) (by simp [hfinals])
    · simp [hfinals, Event.isClosing] at hfind
    · rw [hfinals]
      exact ⟨.missingPropertyValue, position, rfl, rfl, fun e he ↦ (nomatch he),
        fun _ ↦ ⟨rfl, kept, rfl⟩⟩

theorem any_isRepair_finalRepairs (s : State) :
    s.finalRepairs.any Event.isRepair = !s.finalRepairs.isEmpty := by
  cases hfinals : s.finalRepairs with
  | nil => rfl
  | cons e events =>
    have hrepair : e.isRepair = true := by
      obtain ⟨position, rfl⟩ | ⟨position, kept, rfl⟩ :=
        exists_of_mem_finalRepairs (s := s) (e := e) (by simp [hfinals]) <;> rfl
    simp [hrepair]

end Parse.State

theorem readingEvents_lenient (options : Options) (text : String) (h : options.strict = false) :
    readingEvents options text =
      (start options.context text (tokenize text)).log.reverse ++
        State.repairsIn options.context {} (tokenize text) := by
  unfold readingEvents
  dsimp only
  rw [foldlM_start_lenient options.context text (tokenize text) h]
  cases State.fatalIn? options.context {} (tokenize text) with
  | some fatal => simp
  | none => simp

theorem readingEvents_prefix (options : Options) (text : String) (h : options.strict = false) :
    readingEvents options text <+: (read options text).events := by
  rw [readingEvents_lenient options text h, read_lenient options text h]
  cases State.fatalIn? options.context {} (tokenize text) with
  | some fatal => exact List.prefix_rfl
  | none => simp [List.append_assoc]

theorem any_isRepair_read_strict (options : Options) (text : String) (h : options.strict = true) :
    (read options text).events.any Event.isRepair = false := by
  rw [read_strict options text h]
  split <;> simp [start, Event.isRepair]

/-- What a strict parse comes to, by what the lenient parse of the same text has reported. -/
theorem strict_of_lenient (path : Option String) (text : String) :
    let file := (Options.mk true path).file
    let lenient := read { strict := false, path } text
    let strict := read { strict := true, path } text
    let reading := readingEvents { strict := false, path } text
    strict.events.any Event.isRepair = false ∧
      reading <+: lenient.events ∧
      (lenient.events.any Event.isRepair = false → strict.result = lenient.result) ∧
      (lenient.events.any Event.isRepair = true →
        ∃ kind position, strict.result = .error ⟨kind, position, text, file⟩ ∧
          kind.isRecoverable = true ∧
          match reading.find? Event.isRepair, lenient.events.find? Event.isClosing with
          | some e, _ => e.refusal? = some (kind, position) ∧ kind ∈ State.readingKinds
          | none, some e => e = .closingBlock position ∧ kind = .unclosedBlock
          | none, none =>
            kind = .missingPropertyValue ∧
              ∃ kept, lenient.events.find? Event.isRepair = some (.keepingText position kept)) := by
  intro file lenient strict reading
  have hprefix : reading <+: lenient.events := readingEvents_prefix { path } text rfl
  have hreading : reading = _ := readingEvents_lenient { path } text rfl
  have hlenient : lenient = _ := read_lenient { path } text rfl
  have hstrict : strict = _ := read_strict { strict := true, path } text rfl
  have hcontext : (Options.mk true path).context = ⟨true, file⟩ := rfl
  have hcontext' : (Options.mk false path).context = ⟨false, file⟩ := rfl
  rw [hcontext, State.repairsIn_mode true false, State.fatalIn?_mode true false] at hstrict
  rw [hcontext'] at hreading hlenient
  refine ⟨any_isRepair_read_strict _ text rfl, hprefix, ?_⟩
  cases hrepairs : State.repairsIn ⟨false, file⟩ {} (tokenize text) with
  | cons e events =>
    have hmem : e ∈ State.repairsIn ⟨false, file⟩ {} (tokenize text) := by simp [hrepairs]
    obtain ⟨kind, position, hrefusal, hkind⟩ := State.exists_refusal_of_mem_repairsIn hmem
    have hrepair := State.isRepair_of_mem_repairsIn hmem
    have hany : lenient.events.any Event.isRepair = true :=
      List.any_eq_true.mpr ⟨e, hprefix.subset (by simp [hreading, hrepairs]), hrepair⟩
    have hfirst : reading.find? Event.isRepair = some e := by
      rw [hreading, hrepairs]
      exact (List.find?_cons_of_pos hrepair : (e :: events).find? Event.isRepair = some e)
    have hresult : strict.result = .error ⟨kind, position, text, file⟩ := by
      rw [hstrict, hrepairs, List.head?_cons, Option.bind_some, hrefusal]
      rfl
    refine ⟨fun hnone ↦ (nomatch hany.symm.trans hnone), fun _ ↦ ?_⟩
    refine ⟨kind, position, hresult, ?_, ?_⟩
    · have hall : ∀ kind ∈ State.readingKinds, kind.isRecoverable = true := by decide
      exact hall kind hkind
    · rw [hfirst]
      exact ⟨hrefusal, hkind⟩
  | nil =>
    have hfirst : reading.find? Event.isRepair = none := by
      rw [hreading, hrepairs]
      rfl
    cases hfatal : State.fatalIn? ⟨false, file⟩ {} (tokenize text) with
    | some fatal =>
      rw [hrepairs, hfatal] at hlenient hstrict
      have hany : lenient.events.any Event.isRepair = false := by
        rw [hlenient]
        rfl
      refine ⟨fun _ ↦ ?_, fun hsome ↦ (nomatch hsome.symm.trans hany)⟩
      rw [hlenient, hstrict]
      rfl
    | none =>
      rw [hrepairs, hfatal] at hlenient hstrict
      let behind := reached ⟨false, file⟩ (tokenize text)
      have hrefused : (reached ⟨true, file⟩ (tokenize text)).finalRefusal? =
          behind.finalRefusal? := rfl
      have hclosing : lenient.events.find? Event.isClosing =
          behind.finalRepairs.find? Event.isClosing := by
        rw [hlenient]
        simp [start, Event.isClosing, behind]
      have hkept : lenient.events.find? Event.isRepair =
          behind.finalRepairs.find? Event.isRepair := by
        rw [hlenient]
        simp [start, Event.isRepair, behind]
      have hany : lenient.events.any Event.isRepair = !behind.finalRepairs.isEmpty := by
        rw [← State.any_isRepair_finalRepairs, hlenient]
        simp [start, Event.isRepair, behind]
      rw [hrefused] at hstrict
      rw [hfirst, hclosing, hkept, hany]
      constructor
      · intro hempty
        have hnone : behind.finalRefusal? = none := by
          have hfinals : behind.finalRepairs = [] := by simpa using hempty
          rw [State.finalRefusal?_eq, hfinals]
          rfl
        rw [hstrict, hlenient, hnone]
        rfl
      · intro hsome
        obtain ⟨kind, position, hrefusal, hrecoverable, hblock, hstatement⟩ :=
          State.exists_finalRefusal (s := behind) (by simpa using hsome)
        refine ⟨kind, position, ?_, hrecoverable, ?_⟩
        · rw [hstrict, hrefusal]
          rfl
        · cases hfind : behind.finalRepairs.find? Event.isClosing with
          | some e => exact hblock e hfind
          | none => exact hstatement hfind

end Stylesheet
