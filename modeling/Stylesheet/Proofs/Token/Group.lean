import Stylesheet.Proofs.Text.Extension
import Stylesheet.Token.Lexeme

/-!
# Groups and what is put behind a text

A lookahead reads to the end of the text, so text that is put behind can matter to every bracket.
The delimiters that are missing at the end of a stylesheet do not: no bracket, no quote and no
backslash is among them (`Bracket.lookahead_append`).

A backslash and the character behind it are one unit of a word, inside of groups and outside. A
group ends with its closing bracket, which is never escaped (`Bracket.escapes_of_lookahead`).
-/

namespace Stylesheet

open Text

namespace Bracket

namespace Scan

variable {s : Scan} {c : Char}

/-- A delimiter of a block or a comment leaves the brackets alone. -/
theorem read_closing (s : Scan) (h : c = '}' ∨ c = '*' ∨ c = '/') :
    ∃ s', s.read c = .ok s' ∧ s'.waiting = s.waiting := by
  have hbackslash : c ≠ '\\' := by
    rcases h with rfl | rfl | rfl <;> decide
  have hquote : isQuote c = false := by
    rcases h with rfl | rfl | rfl <;> rfl
  have hbracket : s.bracket c = .ok (s.past c) := by
    rcases h with rfl | rfl | rfl <;> rfl
  unfold read
  cases s.escaped with
  | true => exact ⟨_, rfl, rfl⟩
  | false =>
    rw [if_neg Bool.false_ne_true, if_neg hbackslash]
    cases s.quote with
    | some q => exact ⟨_, rfl, rfl⟩
    | none =>
      dsimp only
      rw [hquote, if_neg Bool.false_ne_true, hbracket]
      exact ⟨_, rfl, rfl⟩

theorem run_closing (s : Scan) {cs : List Char} (h : Closing cs) : s.run cs = s.giveUp := by
  induction cs generalizing s with
  | nil => rfl
  | cons c cs ih =>
    obtain ⟨hc, hcs⟩ := List.forall_mem_cons.mp h
    obtain ⟨s', hread, hwaiting⟩ := s.read_closing hc
    rw [run, hread]
    calc s'.run cs
      _ = s'.giveUp := ih s' hcs
      _ = s.giveUp := by rw [giveUp, giveUp, hwaiting]

theorem run_append (s : Scan) (cs : List Char) {behind : List Char} (h : Closing behind) :
    s.run (cs ++ behind) = s.run cs := by
  induction cs generalizing s with
  | nil => exact s.run_closing h
  | cons c cs ih =>
    rw [List.cons_append, run, run]
    cases s.read c with
    | ok s' => exact ih s'
    | error result => rfl

/-- Reading a bracket never leaves an escape behind. -/
theorem bracket_cases (s : Scan) (c : Char) :
    (∃ s', s.bracket c = .ok s' ∧ s'.escaped = s.escaped ∧ s'.length = s.length + 1) ∨
      s.bracket c = .error s.giveUp ∨ s.bracket c = .error (.group (s.length + 1)) := by
  unfold bracket
  cases closerOf? c with
  | some closer => exact .inl ⟨_, rfl, rfl, rfl⟩
  | none =>
    cases isCloser c with
    | false => exact .inl ⟨_, rfl, rfl, rfl⟩
    | true =>
      cases s.waiting with
      | nil => exact .inr (.inl rfl)
      | cons w outer =>
        rw [if_pos rfl]
        dsimp only
        by_cases hcloser : w.closer ≠ c
        · rw [if_pos hcloser]
          exact .inr (.inl rfl)
        · rw [if_neg hcloser]
          cases outer.isEmpty with
          | true => exact .inr (.inr rfl)
          | false => exact .inl ⟨_, rfl, rfl, rfl⟩

/-- A scan that goes on knows whether the next character is escaped; one that finds the end of the
group finds it at a bracket that is not. -/
theorem read_cases (s : Scan) (c : Char) :
    (∃ s', s.read c = .ok s' ∧ s'.escaped = (!s.escaped && c == '\\') ∧
      s'.length = s.length + 1) ∨
      s.read c = .error s.giveUp ∨
        (s.read c = .error (.group (s.length + 1)) ∧ (!s.escaped && c == '\\') = false) := by
  unfold read
  cases hescaped : s.escaped with
  | true => exact .inl ⟨_, rfl, rfl, rfl⟩
  | false =>
    by_cases hbackslash : c = '\\'
    · subst hbackslash
      exact .inl ⟨_, rfl, rfl, rfl⟩
    have hplain : (c == '\\') = false := beq_false_of_ne hbackslash
    rw [if_neg Bool.false_ne_true, if_neg hbackslash, hplain]
    cases s.quote with
    | some q => exact .inl ⟨_, rfl, hescaped, rfl⟩
    | none =>
      cases isQuote c with
      | true => exact .inl ⟨_, rfl, hescaped, rfl⟩
      | false =>
        rcases s.bracket_cases c with ⟨s', hok, hsame, hlength⟩ | herror | herror
        · exact .inl ⟨s', hok, hsame.trans hescaped, hlength⟩
        · exact .inr (.inl herror)
        · exact .inr (.inr ⟨herror, rfl⟩)

theorem group_of_run {cs : List Char} {length : Nat} (h : s.run cs = .group length) :
    ∃ front behind, cs = front ++ behind ∧ front ≠ [] ∧ length = s.length + front.length ∧
      escapesFrom s.escaped front = false := by
  induction cs generalizing s with
  | nil => contradiction
  | cons c cs ih =>
    rw [run] at h
    rcases s.read_cases c with ⟨s', hread, hescaped, hlength⟩ | hread | ⟨hread, hend⟩
    · rw [hread] at h
      obtain ⟨front, behind, rfl, _, hfront, hend⟩ := ih h
      rw [hescaped] at hend
      refine ⟨c :: front, behind, rfl, List.cons_ne_nil _ _, ?_, hend⟩
      rw [hfront, hlength, List.length_cons]
      omega
    · rw [hread] at h
      contradiction
    · rw [hread] at h
      exact ⟨[c], cs, rfl, List.cons_ne_nil _ _, (Lookahead.group.inj h).symm, hend⟩

end Scan

theorem lookahead_append (offset : Nat) (cs : List Char) {behind : List Char}
    (h : Closing behind) : lookahead offset (cs ++ behind) = lookahead offset cs :=
  Scan.run_append _ cs h

theorem escapes_of_lookahead {offset length : Nat} {cs : List Char}
    (h : lookahead offset cs = .group length) :
    ∃ front behind, cs = front ++ behind ∧ front ≠ [] ∧ length = front.length ∧
      escapes front = false := by
  obtain ⟨front, behind, hcs, hne, hlength, hend⟩ := Scan.group_of_run h
  exact ⟨front, behind, hcs, hne, hlength.trans (Nat.zero_add _), hend⟩

end Bracket

end Stylesheet
