import Stylesheet.Parse
import Stylesheet.Proofs.Parse.Advance

/-!
# What a run does

A lenient run makes all the repairs that the tokens call for, up to a token that ends every parse
(`State.foldlM_step_lenient`). A strict run stops at the first of these or at that token, and
otherwise comes to the same state (`State.foldlM_step_strict`).
-/

namespace Stylesheet.Parse

namespace State

/-- Where the tokens end every parse, if they do. -/
def fatalIn? (context : Context) : State → List Token → Option (ErrorKind × Position)
  | _, [] => none
  | s, t :: ts => (s.fatal? t).or (fatalIn? context (s.advance context t) ts)

/-- The repairs that the tokens call for, up to a token that ends every parse. -/
def repairsIn (context : Context) : State → List Token → List Event
  | _, [] => []
  | s, t :: ts =>
    if (s.fatal? t).isSome then []
    else (s.repair? t).toList ++ repairsIn context (s.advance context t) ts

section

variable (context : Context) (s : State) (ts : List Token) (log : List Event)

@[simp]
theorem fatalIn?_withLog : (s.withLog log).fatalIn? context ts = s.fatalIn? context ts := by
  induction ts generalizing s with
  | nil => rfl
  | cons t ts ih =>
    have hfatal : (s.withLog log).fatal? t = s.fatal? t := rfl
    rw [fatalIn?, fatalIn?, hfatal, advance_withLog, ih]

@[simp]
theorem repairsIn_withLog : (s.withLog log).repairsIn context ts = s.repairsIn context ts := by
  induction ts generalizing s with
  | nil => rfl
  | cons t ts ih =>
    have hfatal : (s.withLog log).fatal? t = s.fatal? t := rfl
    have hrepair : (s.withLog log).repair? t = s.repair? t := rfl
    rw [repairsIn, repairsIn, hfatal, hrepair, advance_withLog, ih]

@[simp]
theorem foldl_advance_withLog :
    ts.foldl (advance context) (s.withLog log) = (ts.foldl (advance context) s).withLog log := by
  induction ts generalizing s with
  | nil => rfl
  | cons t ts ih => rw [List.foldl_cons, advance_withLog, ih, List.foldl_cons]

variable {context s ts} in
theorem exists_of_mem_repairsIn {e : Event} (h : e ∈ s.repairsIn context ts) :
    ∃ (s : State) (t : Token), e ∈ s.repair? t := by
  induction ts generalizing s with
  | nil => exact absurd h List.not_mem_nil
  | cons t ts ih =>
    rw [repairsIn] at h
    split at h
    · exact absurd h List.not_mem_nil
    · obtain hfirst | hlater := List.mem_append.mp h
      · exact ⟨s, t, Option.mem_toList.mp hfirst⟩
      · exact ih hlater

variable {context s ts} in
theorem isRepair_of_mem_repairsIn {e : Event} (h : e ∈ s.repairsIn context ts) :
    e.isRepair = true := by
  obtain ⟨s, t, hrepair⟩ := exists_of_mem_repairsIn h
  exact isRepair_of_mem_repair? s t hrepair

/-- Nothing is refused only where nothing is repaired. -/
theorem head?_repairsIn_eq_none_iff :
    (s.repairsIn context ts).head?.bind Event.refusal? = none ↔ s.repairsIn context ts = [] := by
  have hrepairs (e : Event) (he : e ∈ s.repairsIn context ts) : e.refusal?.isSome = true := by
    rw [← Event.isRepair_eq_isSome_refusal?]
    exact isRepair_of_mem_repairsIn he
  cases hlist : s.repairsIn context ts with
  | nil => simp
  | cons e events =>
    have hfirst := hrepairs e (by simp [hlist])
    simpa using Option.isSome_iff_ne_none.mp hfirst

variable {context s ts} in
/-- Where nothing is repaired, no token is unclosed. -/
theorem unclosed_of_repairsIn_eq_nil (hts : ∀ t ∈ ts, t.Shaped)
    (hopen : s.ended = false) (hfatal : s.fatalIn? context ts = none)
    (hrepairs : s.repairsIn context ts = []) : ∀ t ∈ ts, t.unclosed = false := by
  induction ts generalizing s with
  | nil => exact fun _ h ↦ nomatch h
  | cons t ts ih =>
    obtain ⟨ht, hts⟩ := List.forall_mem_cons.mp hts
    obtain ⟨hfirst, hlater⟩ := Option.or_eq_none_iff.mp hfatal
    rw [repairsIn, hfirst, if_neg (by simp)] at hrepairs
    obtain ⟨hnone, hrest⟩ := List.append_eq_nil_iff.mp hrepairs
    rw [Option.toList_eq_nil_iff] at hnone
    have hnext : (s.advance context t).ended = false := by
      rw [ended_advance, hopen, hnone]
      rfl
    refine List.forall_mem_cons.mpr ⟨?_, ih hts hnext hlater hrest⟩
    cases hunclosed : t.unclosed with
    | false => rfl
    | true =>
      obtain hkind | hkind := ht.unclosed hunclosed <;>
        simp [repair?, hopen, hkind, hunclosed] at hnone

variable {context} in
theorem foldlM_step_lenient (h : context.strict = false) :
    ts.foldlM (step context) s =
      match s.fatalIn? context ts with
      | some (kind, position) =>
        .error ⟨kind, position, (s.repairsIn context ts).reverse ++ s.log⟩
      | none =>
        .ok ((ts.foldl (advance context) s).withLog
          ((s.repairsIn context ts).reverse ++ s.log)) := by
  induction ts generalizing s with
  | nil => rfl
  | cons t ts ih =>
    have hreverse (repair : Option Event) : repair.toList.reverse = repair.toList := by
      cases repair <;> rfl
    rw [List.foldlM_cons, step_eq, fatalIn?, repairsIn]
    cases hfatal : s.fatal? t with
    | some fatal => rfl
    | none =>
      have hnext := repaired_lenient h (s.advance context t) (s.repair? t)
      rw [log_advance] at hnext
      dsimp only
      rw [hnext]
      apply (ih _).trans
      simp [hreverse]

variable {context} in
theorem foldlM_step_strict (h : context.strict = true) :
    ts.foldlM (step context) s =
      match ((s.repairsIn context ts).head?.bind Event.refusal?).or (s.fatalIn? context ts) with
      | some (kind, position) => .error ⟨kind, position, s.log⟩
      | none => .ok (ts.foldl (advance context) s) := by
  induction ts generalizing s with
  | nil => rfl
  | cons t ts ih =>
    rw [List.foldlM_cons, step_eq, fatalIn?, repairsIn]
    cases hfatal : s.fatal? t with
    | some fatal => rfl
    | none =>
      have hrepair : ∀ e ∈ s.repair? t, e.isRepair = true := fun e he ↦
        isRepair_of_mem_repair? s t he
      dsimp only
      rw [repaired_strict h _ _ hrepair]
      cases hmade : s.repair? t with
      | none =>
        apply (ih _).trans
        simp
      | some e =>
        have hrefusal := hrepair e hmade
        rw [Event.isRepair_eq_isSome_refusal?] at hrefusal
        obtain ⟨refusal, hrefusal⟩ := Option.isSome_iff_exists.mp hrefusal
        simp [hrefusal]
        rfl

end

end State

/-- The state behind the last token. -/
def reached (context : Context) (ts : List Token) : State :=
  ts.foldl (State.advance context) {}

variable (context : Context) (text : String) (ts : List Token)

theorem foldlM_start_lenient (h : context.strict = false) :
    ts.foldlM (State.step context) (start context text ts) =
      match State.fatalIn? context {} ts with
      | some (kind, position) =>
        .error ⟨kind, position,
          (State.repairsIn context {} ts).reverse ++ (start context text ts).log⟩
      | none =>
        .ok ((reached context ts).withLog
          ((State.repairsIn context {} ts).reverse ++ (start context text ts).log)) := by
  have hstart : start context text ts = ({} : State).withLog (start context text ts).log := rfl
  have hread := State.foldlM_step_lenient (start context text ts) ts h
  rw [hread, hstart]
  simp only [State.fatalIn?_withLog, State.repairsIn_withLog, State.foldl_advance_withLog]
  rfl

theorem foldlM_start_strict (h : context.strict = true) :
    ts.foldlM (State.step context) (start context text ts) =
      match ((State.repairsIn context {} ts).head?.bind Event.refusal?).or
          (State.fatalIn? context {} ts) with
      | some (kind, position) => .error ⟨kind, position, (start context text ts).log⟩
      | none => .ok ((reached context ts).withLog (start context text ts).log) := by
  have hstart : start context text ts = ({} : State).withLog (start context text ts).log := rfl
  have hread := State.foldlM_step_strict (start context text ts) ts h
  rw [hread, hstart]
  simp only [State.fatalIn?_withLog, State.repairsIn_withLog, State.foldl_advance_withLog]
  rfl

theorem run_lenient (h : context.strict = false) :
    run context text ts =
      match State.fatalIn? context {} ts with
      | some (kind, position) =>
        .error ⟨kind, position,
          (State.repairsIn context {} ts).reverse ++ (start context text ts).log⟩
      | none =>
        .ok (((reached context ts).conclusion context).withLog
          ((reached context ts).finalRepairs.reverse ++
            ((State.repairsIn context {} ts).reverse ++ (start context text ts).log))) := by
  rw [run, foldlM_start_lenient context text ts h]
  cases State.fatalIn? context {} ts with
  | some fatal => rfl
  | none =>
    apply (State.finish_lenient _ h).trans
    rw [State.conclusion_withLog]
    rfl

theorem run_strict (h : context.strict = true) :
    run context text ts =
      match (((State.repairsIn context {} ts).head?.bind Event.refusal?).or
          (State.fatalIn? context {} ts)).or (reached context ts).finalRefusal? with
      | some (kind, position) => .error ⟨kind, position, (start context text ts).log⟩
      | none =>
        .ok (((reached context ts).conclusion context).withLog (start context text ts).log) := by
  rw [run, foldlM_start_strict context text ts h]
  cases ((State.repairsIn context {} ts).head?.bind Event.refusal?).or
      (State.fatalIn? context {} ts) with
  | some refusal => rfl
  | none =>
    apply (State.finish_strict _ h).trans
    rw [State.conclusion_withLog]
    rfl

/-- The tree of a text whose tokens do not end every parse. -/
def treeOf (context : Context) (ts : List Token) : Tree :=
  ((reached context ts).conclusion context).tree context.file

end Stylesheet.Parse

namespace Stylesheet

open Parse

def Options.context (options : Options) : Context :=
  ⟨options.strict, options.file⟩

variable (options : Options) (text : String)

theorem read_eq :
    read options text =
      match Parse.run options.context text (tokenize text) with
      | .ok s =>
        ⟨(.parsed (s.tree options.file).size :: s.log).reverse, .ok (s.tree options.file)⟩
      | .error failure =>
        ⟨failure.log.reverse, .error ⟨failure.kind, failure.position, text, options.file⟩⟩ := rfl

/-- The events of a lenient parse are the repairs in their order. -/
theorem read_lenient (h : options.strict = false) :
    read options text =
      match State.fatalIn? options.context {} (tokenize text) with
      | some (kind, position) =>
        ⟨(start options.context text (tokenize text)).log.reverse ++
          State.repairsIn options.context {} (tokenize text),
          .error ⟨kind, position, text, options.file⟩⟩
      | none =>
        ⟨(start options.context text (tokenize text)).log.reverse ++
          State.repairsIn options.context {} (tokenize text) ++
          (reached options.context (tokenize text)).finalRepairs ++
          [.parsed (treeOf options.context (tokenize text)).size],
          .ok (treeOf options.context (tokenize text))⟩ := by
  have hrun := run_lenient options.context text (tokenize text) h
  rw [read_eq, hrun]
  cases State.fatalIn? options.context {} (tokenize text) with
  | some fatal => simp
  | none =>
    simp only [State.log_withLog, List.reverse_cons, List.reverse_append, List.reverse_reverse,
      List.append_assoc]
    rfl

theorem parse_lenient_eq_ok_iff (h : options.strict = false) (tree : Tree) :
    parse options text = .ok tree ↔
      State.fatalIn? options.context {} (tokenize text) = none ∧
        treeOf options.context (tokenize text) = tree := by
  rw [parse, read_lenient options text h]
  cases State.fatalIn? options.context {} (tokenize text) with
  | some fatal => simp
  | none => simp

/-- A strict parse reports no repairs. It fails with the first that is called for. -/
theorem read_strict (h : options.strict = true) :
    read options text =
      match (((State.repairsIn options.context {} (tokenize text)).head?.bind Event.refusal?).or
          (State.fatalIn? options.context {} (tokenize text))).or
            (reached options.context (tokenize text)).finalRefusal? with
      | some (kind, position) =>
        ⟨(start options.context text (tokenize text)).log.reverse,
          .error ⟨kind, position, text, options.file⟩⟩
      | none =>
        ⟨(start options.context text (tokenize text)).log.reverse ++
          [.parsed (treeOf options.context (tokenize text)).size],
          .ok (treeOf options.context (tokenize text))⟩ := by
  have hrun := run_strict options.context text (tokenize text) h
  rw [read_eq, hrun]
  cases (((State.repairsIn options.context {} (tokenize text)).head?.bind Event.refusal?).or
          (State.fatalIn? options.context {} (tokenize text))).or
            (reached options.context (tokenize text)).finalRefusal? with
  | some refusal => rfl
  | none =>
    simp only [State.log_withLog, List.reverse_cons]
    rfl

/-- A strict parse succeeds where nothing is refused. -/
theorem parse_strict_eq_ok_iff (h : options.strict = true) (tree : Tree) :
    parse options text = .ok tree ↔
      State.fatalIn? options.context {} (tokenize text) = none ∧
        State.repairsIn options.context {} (tokenize text) = [] ∧
        (reached options.context (tokenize text)).finalRefusal? = none ∧
        treeOf options.context (tokenize text) = tree := by
  rw [parse, read_strict options text h, ← State.head?_repairsIn_eq_none_iff]
  cases ((State.repairsIn options.context {} (tokenize text)).head?.bind Event.refusal?) with
  | some refusal => simp
  | none =>
    cases State.fatalIn? options.context {} (tokenize text) with
    | some fatal => simp
    | none =>
      cases (reached options.context (tokenize text)).finalRefusal? with
      | some refusal => simp
      | none => simp

end Stylesheet
