import Stylesheet.Proofs.Token.Lookahead

/-!
# Balanced groups

The grammar of bracket groups, without a stack: a group is a pair of brackets around items, and an
item is a group, a string, an escaped character or any other character that is no bracket
(`Bracket.Items`). A lookahead that starts at a bracket finds a group just where one of the grammar
starts (`Bracket.lookahead_eq_group_iff`): it reads over items without a trace
(`Bracket.Items.run_append`), and wherever it finds a closer there are items in front of it
(`Bracket.Scan.exists_items`).
-/

namespace Stylesheet

open Text

/-! ## Quotes -/

/-- Each of the quotes in the text is escaped, if the first character is or is not. -/
def Shields (escaped : Bool) (cs : List Char) (quote : Char) : Prop :=
  ∀ front behind, cs = front ++ quote :: behind → escapesFrom escaped front = true

theorem shields_nil (escaped : Bool) (quote : Char) : Shields escaped [] quote :=
  fun _ _ h ↦ by simp at h

theorem shields_cons_iff {escaped : Bool} {c quote : Char} {cs : List Char} :
    Shields escaped (c :: cs) quote ↔
      (c = quote → escaped = true) ∧ Shields (!escaped && c == '\\') cs quote := by
  constructor
  · intro h
    refine ⟨fun hc ↦ h [] cs (by rw [hc]; rfl), fun front behind hcs ↦ ?_⟩
    exact h (c :: front) behind (by rw [hcs]; rfl)
  · rintro ⟨hfirst, hlater⟩ front behind hcs
    cases front with
    | nil => exact hfirst (List.cons.inj hcs).1
    | cons d front =>
      obtain ⟨rfl, hrest⟩ := List.cons.inj hcs
      exact hlater front behind hrest

/-- A text has a first quote that is not escaped, or all of its quotes are. -/
theorem exists_quote_or_shields (escaped : Bool) (cs : List Char) (quote : Char) :
    (∃ inner behind, cs = inner ++ quote :: behind ∧ Shields escaped inner quote ∧
      escapesFrom escaped inner = false) ∨ Shields escaped cs quote := by
  induction cs generalizing escaped with
  | nil => exact .inr (shields_nil escaped quote)
  | cons c cs ih =>
    by_cases hfirst : c = quote → escaped = true
    · obtain ⟨inner, behind, rfl, hinner, hend⟩ | hcs := ih (!escaped && c == '\\')
      · exact .inl ⟨c :: inner, behind, rfl, shields_cons_iff.mpr ⟨hfirst, hinner⟩, hend⟩
      · exact .inr (shields_cons_iff.mpr ⟨hfirst, hcs⟩)
    · obtain ⟨rfl, hescaped⟩ := Classical.not_imp.mp hfirst
      exact .inl ⟨[], cs, rfl, shields_nil escaped c, (Bool.not_eq_true escaped).mp hescaped⟩

namespace Bracket

/-! ## The grammar -/

/-- The brackets of a group. -/
inductive Pairs : Char → Char → Prop
  | round : Pairs '(' ')'
  | square : Pairs '[' ']'

def quotes : List Char := ['"', '\'']

/-- The characters that count in a group. -/
def marks : List Char := ['(', ')', '[', ']', '"', '\'', '\\']

/-- What can stand between the brackets of a group. -/
inductive Items : List Char → Prop
  | nil : Items []
  | group {opener closer : Char} {inner cs : List Char} (h : Pairs opener closer)
      (hinner : Items inner) (hcs : Items cs) : Items (opener :: inner ++ closer :: cs)
  | string {quote : Char} {inner cs : List Char} (hquote : quote ∈ quotes)
      (hinner : Shields false inner quote) (hend : escapes inner = false) (hcs : Items cs) :
      Items (quote :: inner ++ quote :: cs)
  | escape {c : Char} {cs : List Char} (hcs : Items cs) : Items ('\\' :: c :: cs)
  | plain {c : Char} {cs : List Char} (h : c ∉ marks) (hcs : Items cs) : Items (c :: cs)

inductive IsGroup : List Char → Prop
  | mk {opener closer : Char} {inner : List Char} (h : Pairs opener closer)
      (hinner : Items inner) : IsGroup (opener :: inner ++ [closer])

theorem closerOf?_eq_some_iff {opener closer : Char} :
    closerOf? opener = some closer ↔ Pairs opener closer := by
  constructor
  · intro h
    unfold closerOf? at h
    split at h
    · exact Option.some.inj h ▸ .round
    · exact Option.some.inj h ▸ .square
    · contradiction
  · rintro (_ | _) <;> rfl

theorem isOpener_iff {c : Char} : isOpener c = true ↔ c = '(' ∨ c = '[' := by
  unfold isOpener closerOf?
  split <;> simp_all

theorem mem_quotes_iff {c : Char} : c ∈ quotes ↔ isQuote c = true := by
  simp [quotes, isQuote]

theorem Pairs.isOpener {opener closer : Char} (h : Pairs opener closer) :
    isOpener opener = true := by
  cases h <;> rfl

theorem Pairs.isCloser {opener closer : Char} (h : Pairs opener closer) :
    isCloser closer = true := by
  cases h <;> rfl

theorem IsGroup.ne_nil {cs : List Char} (h : IsGroup cs) : cs ≠ [] := by
  obtain ⟨_, _⟩ := h
  exact List.cons_ne_nil _ _

theorem ne_backslash_of_mem_quotes {c : Char} (h : c ∈ quotes) : c ≠ '\\' := by
  rintro rfl
  exact absurd h (by decide)

/-- A character that does not count is no bracket, no quote and no backslash. -/
theorem plain_of_notMem_marks {c : Char} (h : c ∉ marks) :
    closerOf? c = none ∧ isCloser c = false ∧ isQuote c = false ∧ c ≠ '\\' := by
  simp only [marks, List.mem_cons, List.not_mem_nil, or_false, not_or] at h
  obtain ⟨hround, hroundEnd, hsquare, hsquareEnd, hdouble, hsingle, hbackslash⟩ := h
  refine ⟨?_, by simp [isCloser, hroundEnd, hsquareEnd], by simp [isQuote, hdouble, hsingle],
    hbackslash⟩
  unfold closerOf?
  split <;> simp_all

/-- A closer is no opener and neither opens a string nor escapes. -/
theorem closer_plain {c : Char} (h : isCloser c = true) :
    closerOf? c = none ∧ Scan.quoteBehind? none false c = none := by
  have hc : c = ')' ∨ c = ']' := by simpa [isCloser] using h
  rcases hc with rfl | rfl <;> exact ⟨rfl, rfl⟩

/-- A quote is no bracket. -/
theorem quote_plain {c : Char} (h : c ∈ quotes) : closerOf? c = none ∧ isCloser c = false := by
  have hc : c = '"' ∨ c = '\'' := by simpa [quotes] using h
  rcases hc with rfl | rfl <;> exact ⟨rfl, rfl⟩

/-- What a character is to a group. -/
theorem mark_cases (c : Char) :
    (∃ closer, Pairs c closer) ∨ isCloser c = true ∨ c ∈ quotes ∨ c = '\\' ∨ c ∉ marks := by
  by_cases hmark : c ∈ marks
  · simp only [marks, List.mem_cons, List.not_mem_nil, or_false] at hmark
    rcases hmark with rfl | rfl | rfl | rfl | rfl | rfl | rfl
    · exact .inl ⟨_, .round⟩
    · exact .inr (.inl rfl)
    · exact .inl ⟨_, .square⟩
    · exact .inr (.inl rfl)
    · exact .inr (.inr (.inl (by decide)))
    · exact .inr (.inr (.inl (by decide)))
    · exact .inr (.inr (.inr (.inl rfl)))
  · exact .inr (.inr (.inr (.inr hmark)))

/-! ## Reading items -/

namespace Scan

/-- Neither in a string nor behind a backslash. -/
structure Outside (s : Scan) : Prop where
  quote : s.quote = none
  escaped : s.escaped = false

/-- The scan behind a text that leaves no trace. -/
def skip (s : Scan) (cs : List Char) : Scan :=
  { s with offset := s.offset + byteLength cs, length := s.length + cs.length }

variable {s : Scan} {c quote : Char} {cs : List Char}

@[simp]
theorem skip_nil (s : Scan) : s.skip [] = s := rfl

theorem skip_cons (s : Scan) (c : Char) (cs : List Char) :
    s.skip (c :: cs) = (s.past c).skip cs := by
  simp [skip, past, Nat.add_assoc, Nat.add_comm 1]

theorem skip_append (s : Scan) (cs ds : List Char) : s.skip (cs ++ ds) = (s.skip cs).skip ds := by
  simp [skip, Nat.add_assoc]

theorem Outside.skip (h : s.Outside) (cs : List Char) : (s.skip cs).Outside :=
  ⟨h.quote, h.escaped⟩

theorem Outside.read_plain (h : s.Outside) (hc : c ∉ marks) : s.read c = .ok (s.past c) := by
  obtain ⟨hopener, hcloser, hquote, hbackslash⟩ := plain_of_notMem_marks hc
  simp [read, h.escaped, h.quote, hbackslash, hquote, bracket, hopener, hcloser]

theorem Outside.run_escape (h : s.Outside) (c : Char) (cs : List Char) :
    s.run ('\\' :: c :: cs) = (s.skip ['\\', c]).run cs := by
  obtain ⟨offset, length, waiting, quote, escaped⟩ := s
  obtain ⟨rfl, rfl⟩ := h
  have hskip : (Scan.mk offset length waiting none false).skip ['\\', c] =
      ⟨offset + '\\'.utf8Size + c.utf8Size, length + 1 + 1, waiting, none, false⟩ := by
    simp [Scan.skip, Nat.add_assoc]
  rw [hskip]
  rfl

/-- One character inside of a string. -/
theorem read_quoted (hquote : s.quote = some quote) (c : Char)
    (hc : c = quote → s.escaped = true) :
    s.read c = .ok { s.past c with escaped := !s.escaped && c == '\\' } := by
  unfold read
  cases hescaped : s.escaped with
  | true => rfl
  | false =>
    by_cases hbackslash : c = '\\'
    · simp [hbackslash]
    · have hne : c ≠ quote := fun heq ↦ by simp [hc heq] at hescaped
      have hplain : (c == '\\') = false := beq_false_of_ne hbackslash
      simp [past, hbackslash, hplain, hquote, hescaped, hne]

/-- Without a quote that is not escaped a string runs to the end. -/
theorem run_shields (hquote : s.quote = some quote) (h : Shields s.escaped cs quote) :
    s.run cs = s.giveUp := by
  induction cs generalizing s with
  | nil => rfl
  | cons c cs ih =>
    obtain ⟨hc, hcs⟩ := shields_cons_iff.mp h
    rw [run, read_quoted hquote c hc]
    exact ih hquote hcs

theorem run_quoted {inner : List Char} (hquote : s.quote = some quote) (hmark : quote ≠ '\\')
    (hinner : Shields s.escaped inner quote) (hend : escapesFrom s.escaped inner = false)
    (cs : List Char) :
    s.run (inner ++ quote :: cs) =
      { s.skip (inner ++ [quote]) with quote := none, escaped := false : Scan }.run cs := by
  induction inner generalizing s with
  | nil =>
    have hescaped : s.escaped = false := hend
    have hread : s.read quote = .ok { s.skip [quote] with quote := none, escaped := false } := by
      simp [read, hescaped, hmark, hquote, past, skip]
    rw [List.nil_append, run, hread]
    rfl
  | cons c inner ih =>
    obtain ⟨hc, hinner⟩ := shields_cons_iff.mp hinner
    have hnext := @ih { s.past c with escaped := !s.escaped && c == '\\' } hquote hinner hend
    rw [List.cons_append, run, read_quoted hquote c hc]
    dsimp only
    rw [hnext, List.cons_append, skip_cons]
    rfl

theorem Outside.run_string (h : s.Outside) (hquote : quote ∈ quotes) {inner : List Char}
    (hinner : Shields false inner quote) (hend : escapes inner = false) (cs : List Char) :
    s.run (quote :: inner ++ quote :: cs) = (s.skip (quote :: inner ++ [quote])).run cs := by
  have hmark := ne_backslash_of_mem_quotes hquote
  obtain ⟨offset, length, waiting, _, _⟩ := s
  obtain ⟨rfl, rfl⟩ := h
  let opened : Scan := ⟨offset + quote.utf8Size, length + 1, waiting, some quote, false⟩
  have hread : (Scan.mk offset length waiting none false).read quote = .ok opened := by
    simp [read, hmark, mem_quotes_iff.mp hquote, past, opened]
  rw [List.cons_append, run, hread]
  dsimp only
  rw [run_quoted (s := opened) rfl hmark hinner hend, List.cons_append, skip_cons]
  rfl

/-- A string that is not closed runs to the end. -/
theorem Outside.run_unclosed (h : s.Outside) (hquote : quote ∈ quotes)
    (hcs : Shields false cs quote) : s.run (quote :: cs) = s.giveUp := by
  have hmark := ne_backslash_of_mem_quotes hquote
  have hread : s.read quote = .ok { s.past quote with quote := some quote } := by
    simp [read, h.escaped, hmark, h.quote, mem_quotes_iff.mp hquote]
  have hescaped : ({ s.past quote with quote := some quote } : Scan).escaped = false := h.escaped
  rw [run, hread]
  exact run_shields rfl (hescaped ▸ hcs)

theorem Outside.run_backslash (h : s.Outside) : s.run ['\\'] = s.giveUp := by
  have hread : s.read '\\' = .ok { s.past '\\' with escaped := true } := by
    simp [read, h.escaped]
  rw [run, hread]
  rfl

theorem Outside.run_opener (h : s.Outside) {opener closer : Char} (hpairs : Pairs opener closer)
    (cs : List Char) :
    s.run (opener :: cs) =
      { s.past opener with waiting := ⟨closer, s.offset⟩ :: s.waiting : Scan }.run cs := by
  rw [run, read_opener (closerOf?_eq_some_iff.mpr hpairs) h.quote h.escaped]

theorem Outside.read_closer (h : s.Outside) {w : Waiting} {outer : List Waiting}
    (hwaiting : s.waiting = w :: outer) (hc : isCloser c = true) :
    s.read c =
      if w.closer ≠ c then .error s.giveUp
      else if outer.isEmpty then .error (.group (s.length + 1))
      else .ok { s.past c with waiting := outer } := by
  obtain ⟨hopener, hnone⟩ := closer_plain hc
  rw [read_eq, h.quote, h.escaped, hnone]
  dsimp only
  rw [bracket, hopener, hwaiting]
  simp [hc]

/-- Behind the closer of an inner group the scan is as it was in front of the group. -/
theorem Outside.run_closer (h : s.Outside) {closer : Char} {o : Nat} {w : Waiting}
    {outer : List Waiting} (hwaiting : s.waiting = ⟨closer, o⟩ :: w :: outer)
    (hc : isCloser closer = true) (cs : List Char) :
    s.run (closer :: cs) = { s.past closer with waiting := w :: outer : Scan }.run cs := by
  rw [run, h.read_closer hwaiting hc, if_neg (not_not_intro rfl), List.isEmpty_cons,
    if_neg Bool.false_ne_true]

end Scan

open Scan

/-- Items leave no trace in a scan that waits for a closer. -/
theorem Items.run_append {inner : List Char} (h : Items inner) {s : Scan} (hs : s.Outside)
    (hwaiting : s.waiting ≠ []) (cs : List Char) :
    s.run (inner ++ cs) = (s.skip inner).run cs := by
  induction h generalizing s cs with
  | nil => rfl
  | @group opener closer inner more hpairs _ _ ih ihMore =>
    obtain ⟨w, outer, hw⟩ := List.exists_cons_of_ne_nil hwaiting
    let opened : Scan := { s.past opener with waiting := ⟨closer, s.offset⟩ :: s.waiting }
    have hopened : opened.Outside := ⟨hs.quote, hs.escaped⟩
    have hskipped : (opened.skip inner).waiting = ⟨closer, s.offset⟩ :: w :: outer :=
      congrArg _ hw
    calc s.run ((opener :: inner ++ closer :: more) ++ cs)
      _ = opened.run (inner ++ closer :: (more ++ cs)) := by
        rw [List.append_assoc, List.cons_append, List.cons_append, hs.run_opener hpairs]
      _ = (opened.skip inner).run (closer :: (more ++ cs)) :=
        ih hopened (List.cons_ne_nil _ _) _
      _ = (s.skip (opener :: inner ++ [closer])).run (more ++ cs) := by
        rw [(hopened.skip inner).run_closer hskipped hpairs.isCloser, ← hw, List.cons_append,
          skip_cons, skip_append, skip_cons]
        rfl
      _ = (s.skip (opener :: inner ++ closer :: more)).run cs := by
        rw [ihMore (hs.skip _) hwaiting, ← skip_append, List.append_assoc]
        rfl
  | @string quote inner more hquote hinner hend _ ih =>
    have hall : (quote :: inner ++ quote :: more) ++ cs =
        quote :: inner ++ quote :: (more ++ cs) := by simp
    rw [hall, hs.run_string hquote hinner hend, ih (hs.skip _) hwaiting, ← skip_append,
      List.append_assoc]
    rfl
  | @escape c more _ ih =>
    rw [List.cons_append, List.cons_append, hs.run_escape, ih (hs.skip _) hwaiting, ← skip_append]
    rfl
  | @plain c more hc _ ih =>
    have hpast : (s.past c).Outside := ⟨hs.quote, hs.escaped⟩
    rw [List.cons_append, run, hs.read_plain hc]
    dsimp only
    rw [ih hpast hwaiting, skip_cons]

/-- Wherever a scan closes the innermost of its brackets, there are items in front. -/
theorem Scan.exists_items {s : Scan} (hs : s.Outside) {w : Waiting} {outer : List Waiting}
    (hwaiting : s.waiting = w :: outer) {cs : List Char} {length : Nat}
    (h : s.run cs = .group length) :
    ∃ inner rest, cs = inner ++ w.closer :: rest ∧ Items inner := by
  match cs with
  | [] => contradiction
  | c :: cs =>
    have hne : s.waiting ≠ [] := by
      rw [hwaiting]
      exact List.cons_ne_nil w outer
    obtain ⟨closer, hpairs⟩ | hcloser | hquote | rfl | hplain := mark_cases c
    · -- Behind the closer of the group that starts here, the scan waits as it does now.
      let opened : Scan := { s.past c with waiting := ⟨closer, s.offset⟩ :: s.waiting }
      have hopened : opened.Outside := ⟨hs.quote, hs.escaped⟩
      rw [hs.run_opener hpairs] at h
      obtain ⟨group, rest, rfl, hgroup⟩ := exists_items hopened rfl h
      have hskipped : (opened.skip group).waiting = ⟨closer, s.offset⟩ :: w :: outer :=
        congrArg _ hwaiting
      rw [hgroup.run_append hopened (List.cons_ne_nil _ _),
        (hopened.skip group).run_closer hskipped hpairs.isCloser] at h
      have hclosed : ({ (opened.skip group).past closer with waiting := w :: outer } :
          Scan).Outside := ⟨hs.quote, hs.escaped⟩
      obtain ⟨inner, rest', rfl, hinner⟩ := exists_items hclosed rfl h
      exact ⟨c :: group ++ closer :: inner, rest', by simp, .group hpairs hgroup hinner⟩
    · rw [run, hs.read_closer hwaiting hcloser] at h
      by_cases hsame : w.closer = c
      · exact ⟨[], cs, by rw [hsame]; rfl, .nil⟩
      · rw [if_pos hsame] at h
        contradiction
    · obtain ⟨string, rest, rfl, hstring, hend⟩ | hshields := exists_quote_or_shields false cs c
      · have hall := hs.run_string hquote hstring hend rest
        rw [List.cons_append] at hall
        rw [hall] at h
        obtain ⟨inner, rest', rfl, hinner⟩ := exists_items (hs.skip _) hwaiting h
        exact ⟨c :: string ++ c :: inner, rest', by simp, .string hquote hstring hend hinner⟩
      · rw [hs.run_unclosed hquote hshields] at h
        contradiction
    · cases cs with
      | nil =>
        rw [hs.run_backslash] at h
        contradiction
      | cons d cs =>
        rw [hs.run_escape] at h
        obtain ⟨inner, rest, rfl, hinner⟩ := exists_items (hs.skip _) hwaiting h
        exact ⟨'\\' :: d :: inner, rest, rfl, .escape hinner⟩
    · have hpast : (s.past c).Outside := ⟨hs.quote, hs.escaped⟩
      rw [run, hs.read_plain hplain] at h
      obtain ⟨inner, rest, rfl, hinner⟩ := exists_items hpast hwaiting h
      exact ⟨c :: inner, rest, rfl, .plain hplain hinner⟩
termination_by cs.length

/-- A lookahead that starts at a bracket finds a group just where there is one. -/
theorem lookahead_eq_group_iff {offset length : Nat} {c : Char} {cs : List Char}
    (hc : isOpener c = true) :
    lookahead offset (c :: cs) = .group length ↔
      ∃ group behind, c :: cs = group ++ behind ∧ IsGroup group ∧ length = group.length := by
  let start : Scan := { offset }
  have hstart : start.Outside := ⟨rfl, rfl⟩
  -- What a scan comes to that has read the opener, the items and the closer.
  have hrun {opener closer : Char} {inner : List Char} (hpairs : Pairs opener closer)
      (hinner : Items inner) (behind : List Char) :
      start.run (opener :: inner ++ closer :: behind) = .group (inner.length + 2) := by
    let opened : Scan := { start.past opener with waiting := [⟨closer, start.offset⟩] }
    have hopened : opened.Outside := ⟨rfl, rfl⟩
    have hlength : (opened.skip inner).length + 1 = inner.length + 2 := by
      simp only [skip, opened, past, start]
      omega
    rw [List.cons_append, hstart.run_opener hpairs,
      hinner.run_append hopened (List.cons_ne_nil _ _), run,
      (hopened.skip inner).read_closer rfl hpairs.isCloser, ← hlength]
    simp [opened, skip]
  constructor
  · intro h
    obtain ⟨closer, hcloser⟩ := Option.isSome_iff_exists.mp hc
    have hpairs := closerOf?_eq_some_iff.mp hcloser
    have hopen : start.run (c :: cs) = .group length := h
    rw [hstart.run_opener hpairs] at hopen
    obtain ⟨inner, behind, rfl, hinner⟩ := exists_items (s := _) ⟨rfl, rfl⟩ rfl hopen
    have hfound := (hrun hpairs hinner behind).symm.trans h
    exact ⟨c :: inner ++ [closer], behind, by simp, .mk hpairs hinner,
      by rw [← Lookahead.group.inj hfound]; simp⟩
  · rintro ⟨_, behind, hgroup, ⟨hpairs, hinner⟩, rfl⟩
    have hfound := hrun hpairs hinner behind
    rw [List.append_assoc, List.singleton_append] at hgroup
    rw [hgroup]
    refine hfound.trans (congrArg _ ?_)
    simp

theorem IsGroup.exists_cons {group : List Char} (h : IsGroup group) :
    ∃ opener more, group = opener :: more ∧ isOpener opener = true := by
  obtain ⟨hpairs, _⟩ := h
  exact ⟨_, _, rfl, hpairs.isOpener⟩

/-- A group is found whatever is behind it. -/
theorem IsGroup.lookahead_append {group : List Char} (h : IsGroup group) (offset : Nat)
    (behind : List Char) : lookahead offset (group ++ behind) = .group group.length := by
  obtain ⟨opener, more, rfl, hopener⟩ := h.exists_cons
  exact (lookahead_eq_group_iff hopener).mpr ⟨opener :: more, behind, rfl, h, rfl⟩

/-- A text starts with one group at most. -/
theorem IsGroup.unique {group group' rest rest' : List Char} (h : IsGroup group)
    (h' : IsGroup group') (hcs : group ++ rest = group' ++ rest') : group = group' := by
  have hfound := h.lookahead_append 0 rest
  rw [hcs, h'.lookahead_append 0 rest'] at hfound
  exact (List.append_inj hcs (Lookahead.group.inj hfound).symm).1

/-- No group starts with the text. -/
def NoGroup (cs : List Char) : Prop :=
  ∀ group behind, cs = group ++ behind → ¬IsGroup group

theorem groupUnit_eq_zero_iff {c : Char} {cs : List Char} (offset : Nat)
    (hc : isOpener c = true) :
    Lexeme.groupUnit [] offset (c :: cs) = 0 ↔ NoGroup (c :: cs) := by
  have hnone : Memory.recalls [] offset = false := rfl
  rw [Lexeme.groupUnit, hnone, if_neg Bool.false_ne_true]
  cases hlookahead : lookahead offset (c :: cs) with
  | group length =>
    obtain ⟨group, behind, hcs, hgroup, rfl⟩ := (lookahead_eq_group_iff hc).mp hlookahead
    have hpos := List.length_pos_iff.mpr hgroup.ne_nil
    refine ⟨fun hzero ↦ absurd hzero (Nat.ne_of_gt hpos), fun h ↦ absurd hgroup (h _ _ hcs)⟩
  | unmatched openers =>
    refine ⟨fun _ group behind hcs hgroup ↦ ?_, fun _ ↦ rfl⟩
    have hfound : lookahead offset (c :: cs) = .group group.length :=
      (lookahead_eq_group_iff hc).mpr ⟨group, behind, hcs, hgroup, rfl⟩
    exact absurd (hlookahead.symm.trans hfound) (by simp)

theorem Fails.noGroup {opener : Char} {cs : List Char} (h : Fails (opener :: cs))
    (hopener : isOpener opener = true) : NoGroup (opener :: cs) := by
  obtain ⟨openers, hlookahead⟩ := h
  have hnone : Memory.recalls [] 0 = false := rfl
  have hzero : Lexeme.groupUnit [] 0 (opener :: cs) = 0 := by
    rw [Lexeme.groupUnit, hnone, hlookahead]
    rfl
  exact (groupUnit_eq_zero_iff 0 hopener).mp hzero

end Bracket

end Stylesheet
