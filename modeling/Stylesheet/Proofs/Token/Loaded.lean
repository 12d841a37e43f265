import Stylesheet.Proofs.Token.Lexical
import Stylesheet.Proofs.Token.Memory
import Stylesheet.Proofs.Token.Registers

/-!
# Registers filled from a text

Filled from the text in front, the registers pass what the cuts of that text take: the loops follow
the rules of the munches turn by turn (`Registers.Follows.consumeWhile`), and so white space,
at-words, strings and comments end where the lexemes end (`Registers.consumeQuoted_load` and its
like). Where they have come to is told by the text that is behind them (`Progress.behind`).
-/

namespace Stylesheet

open Text

namespace Progress

/-- Through a text, character by character. -/
def through (p : Progress) (cs : List Char) : Progress :=
  cs.foldl after p

/-- Behind a text from its start. -/
def behind (cs : List Char) : Progress :=
  ({} : Progress).through cs

@[simp]
theorem through_nil (p : Progress) : p.through [] = p := rfl

theorem through_append (p : Progress) (xs ys : List Char) :
    p.through (xs ++ ys) = (p.through xs).through ys :=
  List.foldl_append

theorem behind_append (xs ys : List Char) : behind (xs ++ ys) = (behind xs).through ys :=
  through_append _ xs ys

theorem through_offset (p : Progress) (cs : List Char) :
    (p.through cs).offset = p.offset + byteLength cs := by
  induction cs generalizing p with
  | nil => rfl
  | cons c cs ih =>
    rw [byteLength_cons, ← Nat.add_assoc]
    exact ih (p.after c)

theorem through_position (p : Progress) (cs : List Char) :
    (p.through cs).position = p.position.advance cs := by
  induction cs generalizing p with
  | nil => rfl
  | cons c cs ih => exact ih (p.after c)

theorem behind_offset (cs : List Char) : (behind cs).offset = byteLength cs := by
  rw [behind, through_offset]
  exact Nat.zero_add _

theorem behind_position (cs : List Char) : (behind cs).position = Position.behind cs := by
  rw [behind, through_position, ← Position.advance_eq_behind]

theorem behind_last (cs : List Char) : (behind cs).last = Position.behind cs.dropLast := by
  obtain rfl | ⟨front, c, rfl⟩ := List.eq_nil_or_concat cs
  · rfl
  · rw [List.concat_eq_append, behind_append, List.dropLast_concat, ← behind_position]
    rfl

end Progress

namespace Registers

variable {cs taken rest : List Char} {c : Char} {offset : Nat}

/-! ## Loops -/

theorem consume_nil (p : Progress) (m : List Nat) : (load [] p m).consume = load [] p m := rfl

theorem consume_load (c : Char) (cs : List Char) (p : Progress) (m : List Nat) :
    (load (c :: cs) p m).consume = load cs (p.after c) m := rfl

theorem iterate_consume (n : Nat) (cs : List Char) (p : Progress) (m : List Nat) :
    consume^[n] (load cs p m) = load (cs.drop n) (p.through (cs.take n)) m := by
  induction n generalizing cs p with
  | zero => rfl
  | succ n ih =>
    cases cs with
    | nil => simpa [consume_nil] using ih [] p
    | cons c cs => exact ih cs (p.after c)

/-- What the registers consume at a time, told from the text. -/
def Follows (unit : Registers → Nat) (rule : List Char → Nat) : Prop :=
  ∀ c cs p m, unit (load (c :: cs) p m) = rule (c :: cs)

theorem consumeWhile_nil (unit : Registers → Nat) (p : Progress) (m : List Nat) :
    consumeWhile unit (load [] p m) = load [] p m := by
  simp [consumeWhile, load]

/-- One turn of the loop. -/
theorem Follows.consumeWhile_cons {unit : Registers → Nat} {rule : List Char → Nat}
    (hunit : Follows unit rule) (hcs : cs ≠ []) (hrule : rule cs ≠ 0) (p : Progress)
    (m : List Nat) :
    consumeWhile unit (load cs p m) =
      consumeWhile unit (load (cs.drop (rule cs)) (p.through (cs.take (rule cs))) m) := by
  obtain ⟨c, cs, rfl⟩ := List.exists_cons_of_ne_nil hcs
  obtain ⟨k, hk⟩ := Nat.exists_eq_succ_of_ne_zero hrule
  have hmany : unit (load (c :: cs) p m) = k + 1 := (hunit c cs p m).trans hk
  rw [hk, ← iterate_consume, consumeWhile]
  split
  · contradiction
  · rw [hmany]
    rfl

theorem Follows.consumeWhile {unit : Registers → Nat} {rule : List Char → Nat}
    (hunit : Follows unit rule) (h : Cut.Munches (fun _ ↦ rule) offset cs taken rest)
    (p : Progress) (m : List Nat) :
    consumeWhile unit (load cs p m) = load rest (p.through taken) m := by
  induction h generalizing p with
  | nothing => exact consumeWhile_nil unit p m
  | @stop offset cs hstop =>
    cases cs with
    | nil => exact consumeWhile_nil unit p m
    | cons c cs =>
      have hzero := (hunit c cs p m).trans hstop
      rw [Registers.consumeWhile]
      split
      · rfl
      · rw [hzero]
        rfl
  | @next offset xs cs taken rest hxs hlength _ ih =>
    have hsome : rule (xs ++ cs) ≠ 0 := by
      rw [hlength]
      exact mt List.eq_nil_of_length_eq_zero hxs
    rw [hunit.consumeWhile_cons (List.append_ne_nil_of_left_ne_nil hxs cs) hsome, hlength,
      List.drop_left, List.take_left, ih, p.through_append]
  | @short offset cs hcs hover =>
    rw [hunit.consumeWhile_cons hcs (Nat.ne_of_gt (Nat.zero_lt_of_lt hover)),
      List.drop_eq_nil_of_le (Nat.le_of_lt hover), List.take_of_length_le (Nat.le_of_lt hover),
      consumeWhile_nil]

/-! ## Lexemes -/

theorem follows_quotedUnit (quote : Char) :
    Follows (quotedUnit quote) (Lexeme.quotedUnit quote) := by
  intro c cs p m
  simp [quotedUnit, Lexeme.quotedUnit, load]

theorem follows_commentUnit : Follows commentUnit Lexeme.commentUnit := by
  intro c cs p m
  by_cases hend : ∃ behind, c :: cs = '*' :: '/' :: behind
  · obtain ⟨behind, hall⟩ := hend
    rw [hall]
    rfl
  · rw [Lexeme.commentUnit_eq_one (mt Lexeme.commentUnit_eq_zero_iff.mp hend), commentUnit, if_neg]
    rintro ⟨hstar, hslash⟩
    obtain ⟨cs, rfl⟩ := List.head?_eq_some_iff.mp hslash
    exact hend ⟨cs, by rw [Option.some.inj hstar]⟩

theorem startsComment_load (c : Char) (cs : List Char) (p : Progress) (m : List Nat) :
    (load (c :: cs) p m).startsComment = Stylesheet.startsComment (c :: cs) := by
  rw [Bool.eq_iff_iff, Lexeme.startsComment_iff]
  cases cs <;> simp [startsComment, load]

theorem follows_atWordUnit : Follows atWordUnit Lexeme.atWordUnit := by
  intro c cs p m
  rw [atWordUnit, startsComment_load]
  simp [Lexeme.atWordUnit, load]

/-- The registers behind a cut of the text that they have been filled from. -/
def past (cut : Cut cs) (p : Progress) (m : List Nat) : Registers :=
  load cut.rest (p.through cut.taken) m

theorem past_andThen (first : Cut cs) (second : Cut first.rest) (p : Progress) (m : List Nat) :
    past second (p.through first.taken) m = past (first.andThen second) p m :=
  congrArg (load second.rest · m) (p.through_append first.taken second.taken).symm

theorem past_characters (n : Nat) (cs : List Char) (p : Progress) (m : List Nat) :
    consume^[n] (load cs p m) = past (Cut.characters n cs) p m :=
  iterate_consume n cs p m

theorem Follows.past_munch {unit : Registers → Nat} {rule : List Char → Nat}
    (hunit : Follows unit rule) (cs : List Char) (p : Progress) (m : List Nat) :
    Registers.consumeWhile unit (load cs p m) = past (Cut.munch (fun _ ↦ rule) 0 cs) p m :=
  hunit.consumeWhile (Cut.munches_munch _ 0 cs) p m

theorem isSome_cur_past (cut : Cut cs) (p : Progress) (m : List Nat) :
    (past cut p m).cur.isSome = !cut.rest.isEmpty := by
  rw [past]
  cases cut.rest <;> rfl

/-- White space is taken character by character. -/
theorem munches_space (offset : Nat) (cs : List Char) :
    Cut.Munches (fun _ cs ↦ if cs.head?.any isBlank then 1 else 0) offset cs
      (cs.takeWhile isBlank) (cs.dropWhile isBlank) := by
  induction cs generalizing offset with
  | nil => exact .nothing offset
  | cons c cs ih =>
    cases hblank : isBlank c with
    | true =>
      rw [List.takeWhile_cons_of_pos hblank, List.dropWhile_cons_of_pos hblank]
      exact .next (List.cons_ne_nil c []) (if_pos hblank) (ih _)
    | false =>
      rw [List.takeWhile_cons_of_neg (by simp [hblank]),
        List.dropWhile_cons_of_neg (by simp [hblank])]
      exact .stop (by simp [hblank])

theorem consumeSpace_load (cs : List Char) (p : Progress) (m : List Nat) :
    (load cs p m).consumeSpace = past (Lexeme.space cs) p m := by
  have hunit : Follows spaceUnit fun cs ↦ if cs.head?.any isBlank then 1 else 0 :=
    fun _ _ _ _ ↦ rfl
  exact hunit.consumeWhile (munches_space 0 cs) p m

theorem consumeAtWord_load (cs : List Char) (p : Progress) (m : List Nat) :
    (load cs p m).consumeAtWord = past (Lexeme.atWord cs) p m := by
  have hsign := past_characters 1 cs p m
  rw [Function.iterate_one] at hsign
  rw [consumeAtWord, hsign, past, follows_atWordUnit.past_munch, past_andThen]
  rfl

theorem consumeQuoted_load (quote : Char) (cs : List Char) (p : Progress) (m : List Nat) :
    consumeQuoted quote (load cs p m) =
      ((Lexeme.quoted quote cs).closed, past (Lexeme.quoted quote cs) p m) := by
  have hone (cs : List Char) (p : Progress) :
      (load cs p m).consume = past (Cut.characters 1 cs) p m :=
    past_characters 1 cs p m
  rw [consumeQuoted, hone, past, (follows_quotedUnit quote).past_munch, past_andThen,
    isSome_cur_past, past, hone, past_andThen]
  rfl

theorem consumeComment_load (cs : List Char) (p : Progress) (m : List Nat) :
    (load cs p m).consumeComment =
      ((Lexeme.comment cs).closed, past (Lexeme.comment cs) p m) := by
  have htwo (cs : List Char) (p : Progress) :
      (load cs p m).consume.consume = past (Cut.characters 2 cs) p m :=
    past_characters 2 cs p m
  rw [consumeComment, htwo, past, follows_commentUnit.past_munch, past_andThen, isSome_cur_past,
    past, htwo, past_andThen]
  rfl

/-- The registers are those behind `front` in the text. -/
def Stands (r : Registers) (cs front : List Char) : Prop :=
  ∃ behind, front ++ behind = cs ∧ r = load behind (Progress.behind front) r.unmatched

end Registers

end Stylesheet
