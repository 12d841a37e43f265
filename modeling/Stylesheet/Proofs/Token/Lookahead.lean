import Stylesheet.Proofs.Text.Bytes
import Stylesheet.Proofs.Token.Group

/-!
# Openers that a lookahead leaves waiting

A lookahead that finds no group names the openers that are still waiting. From each of them a
lookahead of its own finds no group either (`Bracket.fails_of_mem_lookahead`): the inner lookahead
sees the same brackets as the outer one and has fewer openers waiting, so it is never further from
giving up (`Scan.Inside`).

Where the text stands makes no difference to the group that is found (`Bracket.lookahead_shift`).
-/

namespace Stylesheet

open Text

namespace Bracket

/-! ## The offset of the text -/

namespace Lookahead

def shift (bytes : Nat) : Lookahead → Lookahead
  | group length => group length
  | unmatched openers => unmatched (openers.map (bytes + ·))

end Lookahead

namespace Scan

def shift (bytes : Nat) (s : Scan) : Scan :=
  { s with
    offset := bytes + s.offset
    waiting := s.waiting.map fun w ↦ { w with offset := bytes + w.offset } }

/-- A scan that goes on or is decided, with its offsets shifted. -/
def shiftResult (bytes : Nat) : Except Lookahead Scan → Except Lookahead Scan
  | .ok s => .ok (s.shift bytes)
  | .error result => .error (result.shift bytes)

theorem past_shift (bytes : Nat) (s : Scan) (c : Char) :
    (s.shift bytes).past c = (s.past c).shift bytes := by
  simp [past, shift, Nat.add_assoc]

theorem giveUp_shift (bytes : Nat) (s : Scan) :
    (s.shift bytes).giveUp = s.giveUp.shift bytes := by
  simp [giveUp, shift, Lookahead.shift, Function.comp_def]

theorem bracket_shift (bytes : Nat) (s : Scan) (c : Char) :
    (s.shift bytes).bracket c = shiftResult bytes (s.bracket c) := by
  unfold bracket
  rw [past_shift, giveUp_shift]
  cases closerOf? c with
  | some closer => rfl
  | none =>
    cases isCloser c with
    | false => rfl
    | true =>
      obtain ⟨offset, length, waiting, quote, escaped⟩ := s
      cases waiting with
      | nil => rfl
      | cons w outer =>
        by_cases hcloser : w.closer ≠ c
        · simp [shift, shiftResult, hcloser]
        · cases outer <;> simp [shift, shiftResult, hcloser, past, Lookahead.shift]

/-! ## One character -/

/-- What becomes of the string and the escape at the character, unless it stands outside of both
and is read for its own sake. -/
def quoteBehind? (quote : Option Char) (escaped : Bool) (c : Char) : Option (Option Char × Bool) :=
  if escaped then some (quote, false)
  else if c = '\\' then some (quote, true)
  else
    match quote with
    | some q => some (if c = q then none else some q, false)
    | none => if isQuote c then some (some c, false) else none

theorem quoteBehind?_eq_none {quote : Option Char} {escaped : Bool} {c : Char}
    (h : quoteBehind? quote escaped c = none) : quote = none ∧ escaped = false := by
  unfold quoteBehind? at h
  cases escaped with
  | true => contradiction
  | false =>
    cases quote with
    | none => exact ⟨rfl, rfl⟩
    | some q =>
      dsimp only at h
      split at h
      · contradiction
      · split at h <;> contradiction

theorem quoteBehind?_opener {c : Char} (h : isOpener c = true) :
    quoteBehind? none false c = none := by
  have hc : c = '(' ∨ c = '[' := by
    unfold isOpener closerOf? at h
    split at h
    · exact .inl rfl
    · exact .inr rfl
    · contradiction
  cases hc with
  | inl hround => rw [hround]; rfl
  | inr hsquare => rw [hsquare]; rfl

theorem read_eq (s : Scan) (c : Char) :
    s.read c =
      match quoteBehind? s.quote s.escaped c with
      | some (quote, escaped) => .ok { s.past c with quote, escaped }
      | none => s.bracket c := by
  obtain ⟨offset, length, waiting, quote, escaped⟩ := s
  unfold read quoteBehind?
  cases escaped with
  | true => rfl
  | false =>
    rw [if_neg Bool.false_ne_true, if_neg Bool.false_ne_true]
    by_cases hbackslash : c = '\\'
    · rw [if_pos hbackslash, if_pos hbackslash]
      rfl
    · rw [if_neg hbackslash, if_neg hbackslash]
      cases quote with
      | some q => rfl
      | none => cases isQuote c <;> rfl

theorem read_shift (bytes : Nat) (s : Scan) (c : Char) :
    (s.shift bytes).read c = shiftResult bytes (s.read c) := by
  have hquote : (s.shift bytes).quote = s.quote := rfl
  have hescaped : (s.shift bytes).escaped = s.escaped := rfl
  rw [read_eq, read_eq, past_shift, bracket_shift, hquote, hescaped]
  cases quoteBehind? s.quote s.escaped c <;> rfl

theorem run_shift (bytes : Nat) (s : Scan) (cs : List Char) :
    (s.shift bytes).run cs = (s.run cs).shift bytes := by
  induction cs generalizing s with
  | nil => exact giveUp_shift bytes s
  | cons c cs ih =>
    rw [run, run, read_shift]
    cases s.read c with
    | ok s => exact ih s
    | error result => rfl

end Scan

theorem lookahead_shift (bytes offset : Nat) (cs : List Char) :
    lookahead (bytes + offset) cs = (lookahead offset cs).shift bytes :=
  Scan.run_shift bytes { offset } cs

/-- No group starts with the text. -/
def Fails (cs : List Char) : Prop :=
  ∃ openers, lookahead 0 cs = .unmatched openers

theorem fails_iff (offset : Nat) (cs : List Char) :
    (∃ openers, lookahead offset cs = .unmatched openers) ↔ Fails cs := by
  have hshift := lookahead_shift offset 0 cs
  rw [Nat.add_zero] at hshift
  unfold Fails
  rw [hshift]
  cases lookahead 0 cs with
  | group length => simp [Lookahead.shift]
  | unmatched openers => simp [Lookahead.shift]

/-! ## What waits -/

namespace Scan

variable {s s' inner : Scan} {c : Char} {cs : List Char} {openers : List Nat} {w : Waiting}
  {outer : List Waiting}

/-- Going on, a scan keeps its openers, closes the innermost, or is at an opener itself. -/
theorem waiting_of_read (h : s.read c = .ok s') :
    s'.offset = s.offset + c.utf8Size ∧
      (s'.waiting = s.waiting ∨ (∃ w, s.waiting = w :: s'.waiting) ∨
        ∃ closer, closerOf? c = some closer ∧ s.quote = none ∧ s.escaped = false ∧
          s' = { s.past c with waiting := ⟨closer, s.offset⟩ :: s.waiting }) := by
  rw [read_eq] at h
  cases hquote : quoteBehind? s.quote s.escaped c with
  | some behind =>
    rw [hquote] at h
    obtain rfl := Except.ok.inj h
    exact ⟨rfl, .inl rfl⟩
  | none =>
    rw [hquote] at h
    dsimp only at h
    unfold bracket at h
    cases hcloser : closerOf? c with
    | some closer =>
      rw [hcloser] at h
      obtain rfl := Except.ok.inj h
      obtain ⟨hnone, hplain⟩ := quoteBehind?_eq_none hquote
      exact ⟨rfl, .inr (.inr ⟨closer, rfl, hnone, hplain, rfl⟩)⟩
    | none =>
      rw [hcloser] at h
      dsimp only at h
      split at h
      · split at h
        · contradiction
        · next w outer hwaiting =>
          split at h
          · contradiction
          · split at h
            · contradiction
            · obtain rfl := Except.ok.inj h
              exact ⟨rfl, .inr (.inl ⟨w, hwaiting⟩)⟩
      · obtain rfl := Except.ok.inj h
        exact ⟨rfl, .inl rfl⟩

/-- The openers come in the order of the text, the innermost first. -/
structure Ordered (s : Scan) : Prop where
  descending : (s.waiting.map Waiting.offset).Pairwise (· > ·)
  behind : ∀ w ∈ s.waiting, w.offset < s.offset

theorem Ordered.read (hs : s.Ordered) (h : s.read c = .ok s') : s'.Ordered := by
  obtain ⟨hoffset, hwaiting⟩ := waiting_of_read h
  have hlater : s.offset < s'.offset := by
    rw [hoffset]
    exact Nat.lt_add_of_pos_right c.utf8Size_pos
  obtain hsame | ⟨w, hclosed⟩ | ⟨closer, -, -, -, rfl⟩ := hwaiting
  · refine ⟨by rw [hsame]; exact hs.descending, fun w hw ↦ ?_⟩
    exact Nat.lt_trans (hs.behind w (hsame ▸ hw)) hlater
  · have hall := hs.descending
    have hbehind := hs.behind
    rw [hclosed] at hall hbehind
    rw [List.map_cons, List.pairwise_cons] at hall
    exact ⟨hall.2, fun v hv ↦ Nat.lt_trans (hbehind v (List.mem_cons_of_mem w hv)) hlater⟩
  · refine ⟨?_, ?_⟩
    · rw [List.map_cons, List.pairwise_cons]
      exact ⟨by simpa using hs.behind, hs.descending⟩
    · intro w hw
      obtain rfl | hw := List.mem_cons.mp hw
      · exact hlater
      · exact Nat.lt_trans (hs.behind w hw) hlater

/-- What waits has been waiting before, or is the opener that has just been read. -/
theorem mem_waiting_of_read (h : s.read c = .ok s') {o : Nat}
    (ho : o ∈ s'.waiting.map Waiting.offset) :
    o ∈ s.waiting.map Waiting.offset ∨
      o = s.offset ∧ ∃ closer, closerOf? c = some closer ∧ s.quote = none ∧ s.escaped = false ∧
        s' = { s.past c with waiting := ⟨closer, s.offset⟩ :: s.waiting } := by
  obtain hsame | ⟨w, hclosed⟩ | ⟨closer, hc, hquote, hescaped, rfl⟩ := (waiting_of_read h).2
  · exact .inl (hsame ▸ ho)
  · rw [hclosed]
    exact .inl (List.mem_cons_of_mem _ ho)
  · obtain rfl | hbefore := List.mem_cons.mp ho
    · exact .inr ⟨rfl, closer, hc, hquote, hescaped, rfl⟩
    · exact .inl hbefore

/-- An opener that is left waiting at the end has been waiting before or is read later. -/
theorem mem_waiting_or_le (h : s.run cs = .unmatched openers) {o : Nat} (ho : o ∈ openers) :
    o ∈ s.waiting.map Waiting.offset ∨ s.offset ≤ o := by
  induction cs generalizing s with
  | nil =>
    obtain rfl := Lookahead.unmatched.inj h
    exact .inl ho
  | cons c cs ih =>
    rw [run] at h
    obtain ⟨s', hread, -, -⟩ | hread | ⟨hread, -⟩ := s.read_cases c
    · rw [hread] at h
      have hoffset := (waiting_of_read hread).1
      cases ih h with
      | inl hmem =>
        apply (mem_waiting_of_read hread hmem).imp_right
        exact fun hfirst ↦ Nat.le_of_eq hfirst.1.symm
      | inr hle => exact .inr (by omega)
    · rw [hread] at h
      obtain rfl := Lookahead.unmatched.inj h
      exact .inl ho
    · rw [hread] at h
      contradiction

/-! ## A scan inside of a scan -/

/-- The inner scan has started at the opener `w`, when `outer` were waiting already. -/
structure Inside (w : Waiting) (outer : List Waiting) (s inner : Scan) : Prop where
  waiting : ∃ openers, s.waiting = openers ++ w :: outer ∧ inner.waiting = openers ++ [w]
  offset : inner.offset = s.offset
  quote : inner.quote = s.quote
  escaped : inner.escaped = s.escaped

/-- Both scans go on, both give up, or the bracket that the inner scan has started at is closed. -/
theorem Inside.bracket_cases (h : Inside w outer s inner) (c : Char) :
    (∃ s' inner', s.bracket c = .ok s' ∧ inner.bracket c = .ok inner' ∧
      Inside w outer s' inner') ∨
    inner.bracket c = .error inner.giveUp ∨
    (∃ s', s.bracket c = .ok s' ∧ s'.waiting = outer) ∨
    ∃ length, s.bracket c = .error (.group length) := by
  obtain ⟨⟨openers, hs, hinner⟩, hoffset, hquote, hescaped⟩ := h
  have hpast : Inside w outer (s.past c) (inner.past c) :=
    ⟨⟨openers, hs, hinner⟩, congrArg (· + c.utf8Size) hoffset, hquote, hescaped⟩
  unfold bracket
  cases closerOf? c with
  | some closer =>
    refine .inl ⟨_, _, rfl, rfl, ⟨⟨closer, s.offset⟩ :: openers, ?_, ?_⟩, hpast.offset, hquote,
      hescaped⟩
    · exact congrArg _ hs
    · rw [hoffset, hinner]
      rfl
  | none =>
    cases isCloser c with
    | false => exact .inl ⟨_, _, rfl, rfl, hpast⟩
    | true =>
      rw [hs, hinner, if_pos rfl, if_pos rfl]
      cases openers with
      | nil =>
        dsimp only [List.nil_append]
        by_cases hcloser : w.closer ≠ c
        · exact .inr (.inl (by rw [if_pos hcloser]))
        · rw [if_neg hcloser]
          cases outer with
          | nil => exact .inr (.inr (.inr ⟨_, rfl⟩))
          | cons v outer => exact .inr (.inr (.inl ⟨_, rfl, rfl⟩))
      | cons v openers =>
        dsimp only [List.cons_append]
        by_cases hcloser : v.closer ≠ c
        · exact .inr (.inl (by rw [if_pos hcloser]))
        · have hmany (rest : List Waiting) (hrest : rest ≠ []) :
              (openers ++ rest).isEmpty = false := by
            simp [hrest]
          rw [if_neg hcloser, if_neg hcloser, hmany _ (List.cons_ne_nil w outer),
            hmany _ (List.cons_ne_nil w [])]
          exact .inl ⟨_, _, rfl, rfl, ⟨openers, rfl, rfl⟩, hpast.offset, hquote, hescaped⟩

theorem Inside.read_cases (h : Inside w outer s inner) (c : Char) :
    (∃ s' inner', s.read c = .ok s' ∧ inner.read c = .ok inner' ∧ Inside w outer s' inner') ∨
    inner.read c = .error inner.giveUp ∨
    (∃ s', s.read c = .ok s' ∧ s'.waiting = outer) ∨
    ∃ length, s.read c = .error (.group length) := by
  rw [read_eq, read_eq, h.quote, h.escaped]
  cases quoteBehind? s.quote s.escaped c with
  | none => exact h.bracket_cases c
  | some behind =>
    have hoffset := congrArg (· + c.utf8Size) h.offset
    exact .inl ⟨_, _, rfl, rfl, h.waiting, hoffset, rfl, rfl⟩

/-- If the opener is left waiting by the outer scan, the inner scan gives up. -/
theorem Inside.exists_unmatched (h : Inside w outer s inner)
    (houter : ∀ v ∈ outer, v.offset < w.offset) (hw : w.offset < s.offset)
    (hrun : s.run cs = .unmatched openers) (hmem : w.offset ∈ openers) :
    ∃ openers, inner.run cs = .unmatched openers := by
  induction cs generalizing s inner with
  | nil => exact ⟨_, rfl⟩
  | cons c cs ih =>
    rw [run] at hrun ⊢
    obtain ⟨s', inner', hs, hinner, hinside⟩ | hinner | ⟨s', hs, hclosed⟩ | ⟨length, hs⟩ :=
      h.read_cases c
    · rw [hs] at hrun
      rw [hinner]
      have hoffset := (waiting_of_read hs).1
      exact ih hinside (by omega) hrun
    · rw [hinner]
      exact ⟨_, rfl⟩
    · -- Once it is closed, an opener does not come back.
      rw [hs] at hrun
      have hoffset := (waiting_of_read hs).1
      obtain hearlier | hlater := mem_waiting_or_le hrun hmem
      · rw [hclosed] at hearlier
        obtain ⟨v, hv, heq⟩ := List.mem_map.mp hearlier
        exact absurd heq (Nat.ne_of_lt (houter v hv))
      · omega
    · rw [hs] at hrun
      contradiction

theorem read_opener {closer : Char} (hc : closerOf? c = some closer) (hquote : s.quote = none)
    (hescaped : s.escaped = false) :
    s.read c = .ok { s.past c with waiting := ⟨closer, s.offset⟩ :: s.waiting } := by
  have hopener : isOpener c = true := by rw [isOpener, hc]; rfl
  rw [read_eq, hquote, hescaped, quoteBehind?_opener hopener]
  dsimp only
  rw [bracket, hc]

/-- A scan that starts at the opener is inside of the scan that has come to it. -/
theorem fails_of_opener (hs : s.Ordered) {closer : Char} (hc : closerOf? c = some closer)
    (hquote : s.quote = none) (hescaped : s.escaped = false)
    (h : { s.past c with waiting := ⟨closer, s.offset⟩ :: s.waiting : Scan }.run cs =
      .unmatched openers) (ho : s.offset ∈ openers) : Fails (c :: cs) := by
  let fresh : Scan := { offset := s.offset }
  have hfirst : fresh.read c = .ok { fresh.past c with waiting := [⟨closer, s.offset⟩] } :=
    read_opener hc rfl rfl
  have hinside : Inside ⟨closer, s.offset⟩ s.waiting
      { s.past c with waiting := ⟨closer, s.offset⟩ :: s.waiting }
      { fresh.past c with waiting := [⟨closer, s.offset⟩] } :=
    ⟨⟨[], rfl, rfl⟩, rfl, hquote.symm, hescaped.symm⟩
  apply (fails_iff s.offset _).mp
  rw [lookahead, run, hfirst]
  exact hinside.exists_unmatched hs.behind (Nat.lt_add_of_pos_right c.utf8Size_pos) h ho

/-- From an opener that a scan leaves waiting no group starts. -/
theorem fails_of_mem_run (hs : s.Ordered) (h : s.run cs = .unmatched openers) {o : Nat}
    (ho : o ∈ openers) :
    o ∈ s.waiting.map Waiting.offset ∨
      ∃ front opener behind, cs = front ++ opener :: behind ∧ o = s.offset + byteLength front ∧
        isOpener opener = true ∧ Fails (opener :: behind) := by
  induction cs generalizing s with
  | nil =>
    obtain rfl := Lookahead.unmatched.inj h
    exact .inl ho
  | cons c cs ih =>
    rw [run] at h
    obtain ⟨s', hread, -, -⟩ | hread | ⟨hread, -⟩ := s.read_cases c
    · rw [hread] at h
      cases ih (hs.read hread) h with
      | inl hmem =>
        apply (mem_waiting_of_read hread hmem).imp_right
        rintro ⟨rfl, closer, hc, hquote, hescaped, rfl⟩
        exact ⟨[], c, cs, rfl, rfl, Option.isSome_of_eq_some hc,
          fails_of_opener hs hc hquote hescaped h ho⟩
      | inr hlater =>
        obtain ⟨front, opener, behind, rfl, hfront, hopener, hfails⟩ := hlater
        refine .inr ⟨c :: front, opener, behind, rfl, ?_, hopener, hfails⟩
        rw [hfront, (waiting_of_read hread).1, byteLength_cons, Nat.add_assoc]
    · rw [hread] at h
      obtain rfl := Lookahead.unmatched.inj h
      exact .inl ho
    · rw [hread] at h
      contradiction

end Scan

/-- From an opener that a lookahead leaves waiting no group starts. -/
theorem fails_of_mem_lookahead {offset : Nat} {cs : List Char} {openers : List Nat}
    (h : lookahead offset cs = .unmatched openers) {o : Nat} (ho : o ∈ openers) :
    ∃ front opener behind, cs = front ++ opener :: behind ∧ o = offset + byteLength front ∧
      isOpener opener = true ∧ Fails (opener :: behind) := by
  have hordered : ({ offset } : Scan).Ordered := ⟨List.Pairwise.nil, fun w hw ↦ nomatch hw⟩
  obtain hnone | hfails := Scan.fails_of_mem_run hordered h ho
  · exact absurd hnone List.not_mem_nil
  · exact hfails

end Bracket

end Stylesheet
