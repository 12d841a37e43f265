import Stylesheet.Proofs.Text.Munch
import Stylesheet.Proofs.Token.Calls
import Stylesheet.Proofs.Token.Lookahead
import Stylesheet.Proofs.Token.Tiling

/-!
# The memory changes nothing

A memory is sound if every opener in it that is still in front starts no group. What is learned
from a lookahead keeps it sound, and so does going on in the text (`Memory.Sound.learn`,
`Memory.Sound.behind`). Where the memory is sound, a word is the same with it and without it, and
so is every token (`Memory.Sound.ofText?_eq`).

For a cursor this means that its calls answer and move as if it never remembered anything, and that
its tokens are those of the text in front of it (`calls_forget`).
-/

namespace Stylesheet

open Text

namespace Memory

/-- The openers at or behind the offset, where the text starts, are in the text and start no
group. -/
def Sound (memory : Memory) (offset : Nat) (cs : List Char) : Prop :=
  ∀ o ∈ memory, offset ≤ o →
    ∃ front behind, cs = front ++ behind ∧ o = offset + byteLength front ∧ Bracket.Fails behind

variable {memory : Memory} {offset : Nat} {cs : List Char}

theorem sound_nil (offset : Nat) (cs : List Char) : Sound [] offset cs :=
  fun _ ho ↦ absurd ho List.not_mem_nil

theorem mem_of_mem_onward {o : Nat} (h : o ∈ memory.onward offset) : o ∈ memory :=
  (List.dropWhile_sublist _).mem h

theorem mem_of_recalls (h : memory.recalls offset = true) : offset ∈ memory :=
  mem_of_mem_onward (List.mem_of_head? (eq_of_beq h))

theorem mem_insert {m o : Nat} (h : o ∈ memory.insert m) : o = m ∨ o ∈ memory := by
  induction memory with
  | nil => exact .inl (List.mem_singleton.mp h)
  | cons first memory ih =>
    rw [insert] at h
    split at h
    · exact List.mem_cons.mp h
    · split at h
      · exact .inr h
      · obtain rfl | hlater := List.mem_cons.mp h
        · exact .inr List.mem_cons_self
        · exact (ih hlater).imp_right (List.mem_cons_of_mem first)

theorem mem_foldl_insert {openers : List Nat} {o : Nat} (h : o ∈ openers.foldl insert memory) :
    o ∈ openers ∨ o ∈ memory := by
  induction openers generalizing memory with
  | nil => exact .inr h
  | cons m openers ih =>
    obtain hmem | hmem := ih h
    · exact .inl (List.mem_cons_of_mem m hmem)
    · obtain rfl | hmem := mem_insert hmem
      · exact .inl List.mem_cons_self
      · exact .inr hmem

/-- What a lookahead leaves can be remembered. -/
theorem sound_of_lookahead {openers : List Nat}
    (h : Bracket.lookahead offset cs = .unmatched openers) : Sound openers offset cs := by
  intro o ho _
  obtain ⟨front, opener, behind, hcs, hoffset, -, hfails⟩ := Bracket.fails_of_mem_lookahead h ho
  exact ⟨front, opener :: behind, hcs, hoffset, hfails⟩

theorem Sound.learn (h : memory.Sound offset cs) : (memory.learn offset cs).Sound offset cs := by
  unfold Memory.learn
  cases cs with
  | nil => exact h
  | cons c cs =>
    dsimp only
    split
    · cases hlookahead : Bracket.lookahead offset (c :: cs) with
      | group length => exact h
      | unmatched openers =>
        intro o ho hle
        obtain hopener | hmem := mem_foldl_insert ho
        · exact sound_of_lookahead hlookahead o hopener hle
        · exact h o hmem hle
    · exact h

theorem Sound.onward (h : memory.Sound offset cs) (bytes : Nat) :
    (memory.onward bytes).Sound offset cs :=
  fun o ho ↦ h o (mem_of_mem_onward ho)

theorem Sound.behind {taken : List Char} (h : memory.Sound offset (taken ++ cs)) :
    memory.Sound (offset + byteLength taken) cs := by
  intro o ho hle
  obtain ⟨front, behind, htext, rfl, hfails⟩ := h o ho (by omega)
  obtain ⟨inner, rfl, hbehind⟩ := exists_append_of_byteLength_le htext (by omega)
  exact ⟨inner, behind, hbehind, by rw [byteLength_append, Nat.add_assoc], hfails⟩

theorem Sound.fails_of_mem (h : memory.Sound offset cs) (hmem : offset ∈ memory) :
    Bracket.Fails cs := by
  obtain ⟨front, behind, rfl, hoffset, hfails⟩ := h offset hmem (Nat.le_refl _)
  have hnil : front = [] := byteLength_eq_zero_iff.mp (by omega)
  rwa [hnil, List.nil_append]

theorem Sound.fails_of_recalls (h : memory.Sound offset cs)
    (hrecalls : memory.recalls offset = true) : Bracket.Fails cs :=
  h.fails_of_mem (mem_of_recalls hrecalls)

/-! ## Words -/

theorem groupUnit_nil (offset : Nat) (cs : List Char) :
    Lexeme.groupUnit [] offset cs = Lexeme.groupUnit [] 0 cs := by
  have hshift := Bracket.lookahead_shift offset 0 cs
  have hempty (offset : Nat) : recalls [] offset = false := rfl
  rw [Nat.add_zero] at hshift
  rw [Lexeme.groupUnit, Lexeme.groupUnit, hempty, hempty, hshift]
  cases Bracket.lookahead 0 cs <;> rfl

theorem Sound.groupUnit_eq (h : memory.Sound offset cs) :
    Lexeme.groupUnit memory offset cs = Lexeme.groupUnit [] offset cs := by
  have hempty : recalls [] offset = false := rfl
  rw [Lexeme.groupUnit, Lexeme.groupUnit, hempty]
  cases hrecalls : memory.recalls offset with
  | false => rfl
  | true =>
    obtain ⟨openers, hopeners⟩ :=
      (Bracket.fails_iff offset cs).mpr (h.fails_of_recalls hrecalls)
    rw [hopeners]
    rfl

theorem Sound.wordUnit_eq (h : memory.Sound offset cs) (offset' : Nat) :
    Lexeme.wordUnit memory offset cs = Lexeme.wordUnit [] offset' cs := by
  cases cs with
  | nil => rfl
  | cons c cs =>
    rw [Lexeme.wordUnit, Lexeme.wordUnit, h.groupUnit_eq, groupUnit_nil offset,
      groupUnit_nil offset']

theorem Sound.munches {taken rest : List Char} (h : memory.Sound offset cs)
    (hmunch : Cut.Munches (Lexeme.wordUnit memory) offset cs taken rest) (offset' : Nat) :
    Cut.Munches (Lexeme.wordUnit []) offset' cs taken rest := by
  induction hmunch generalizing offset' with
  | nothing => exact .nothing offset'
  | stop hstop => exact .stop ((h.wordUnit_eq offset').symm.trans hstop)
  | next hxs hunit _ ih =>
    exact .next hxs ((h.wordUnit_eq offset').symm.trans hunit) (ih h.behind _)
  | short hcs hover => exact .short hcs (Nat.lt_of_lt_of_eq hover (h.wordUnit_eq offset'))

/-- A word is the same without the memory, wherever the text is thought to start. -/
theorem Sound.word_eq (h : memory.Sound offset cs) (offset' : Nat) :
    Lexeme.word memory offset cs = Lexeme.word [] offset' cs := by
  have hmunch := h.munches (Cut.munches_munch (Lexeme.wordUnit memory) offset cs) offset'
  exact Cut.eq_of_taken hmunch.taken_munch.symm rfl

theorem Sound.ofText?_eq (h : memory.Sound offset cs) (offset' : Nat) :
    Lexeme.ofText? memory offset cs = Lexeme.ofText? [] offset' cs := by
  cases cs with
  | nil => rfl
  | cons c cs =>
    have hword := h.word_eq offset'
    simp only [Lexeme.ofText?, Lexeme.wordOrOther, hword]

end Memory

namespace Cursor

/-! ## Calls -/

/-- The cursor with an empty memory. -/
def forget (c : Cursor) : Cursor :=
  { c with unmatched := [] }

def Sound (c : Cursor) : Prop :=
  c.unmatched.Sound c.offset c.rest

variable {c : Cursor}

theorem Sound.learn (h : c.Sound) : c.learn.Sound :=
  Memory.Sound.learn h

theorem Sound.move (h : c.Sound) (cut : Cut c.rest) : (c.move cut).Sound := by
  have htext : c.unmatched.Sound c.offset (cut.taken ++ cut.rest) := by
    rw [cut.taken_append_rest]
    exact h
  exact htext.behind.onward _

theorem sound_ofString (text : String) : (ofString text).Sound :=
  Memory.sound_nil _ _

theorem Sound.after (h : c.Sound) (call : Call) : (c.after call).Sound := by
  cases call with
  | word => exact (h.move _).learn
  | _ => exact h.move _

/-- A call tells the same and leads to the same place if the memory is emptied in front of it. -/
theorem Sound.call_forget (h : c.Sound) (call : Call) :
    (c.forget.call call).1 = (c.call call).1 ∧
      (c.forget.after call).forget = (c.after call).forget := by
  cases call with
  | word =>
    have hword : Lexeme.word [] c.offset c.rest = Lexeme.word c.unmatched c.offset c.rest :=
      (h.word_eq c.offset).symm
    unfold Cursor.after Cursor.call skipWord
    dsimp only [forget]
    rw [hword]
    exact ⟨rfl, rfl⟩
  | _ => exact ⟨rfl, rfl⟩

/-- A call of a cursor whose memory is emptied before and after. -/
def afterUnaided (c : Cursor) (call : Call) : Cursor :=
  (c.forget.after call).forget

theorem Sound.foldl_after (h : c.Sound) (calls : List Call) :
    (calls.foldl Cursor.after c).Sound ∧
      calls.foldl afterUnaided c.forget = (calls.foldl Cursor.after c).forget := by
  induction calls generalizing c with
  | nil => exact ⟨h, rfl⟩
  | cons call calls ih =>
    have hstep : afterUnaided c.forget call = (c.after call).forget := (h.call_forget call).2
    rw [List.foldl_cons, List.foldl_cons, hstep]
    exact ih (h.after call)

/-! ## Tokens -/

theorem Sound.pass {lexeme : Lexeme c.rest} (h : c.Sound) : (c.pass lexeme).Sound := by
  unfold Cursor.pass
  split
  · exact (h.move _).learn
  · exact h.learn.move _
  · exact h.move _

/-- The tokens in front of the cursor, cut without any memory. -/
def unaidedTokens (c : Cursor) : List Token :=
  match c.forget.lexeme? with
  | none => []
  | some lexeme => c.forget.token lexeme :: unaidedTokens (c.forget.move lexeme.cut)
termination_by c.rest.length
decreasing_by exact lexeme.cut.length_rest_lt lexeme.taken_ne_nil

theorem unaidedTokens_eq_nil (h : c.forget.lexeme? = none) : c.unaidedTokens = [] := by
  rw [unaidedTokens, h]

theorem unaidedTokens_eq_cons {lexeme : Lexeme c.forget.rest}
    (h : c.forget.lexeme? = some lexeme) :
    c.unaidedTokens = c.forget.token lexeme :: (c.forget.move lexeme.cut).unaidedTokens := by
  rw [unaidedTokens, h]

end Cursor

/-- The token as it is if the text that it is in starts further on. -/
def Token.continued (offset : Nat) (position : Position) (t : Token) : Token :=
  { t with
    span := ⟨offset + t.span.start, offset + t.span.stop⟩
    start := position.continued t.start
    stop := position.continued t.stop }

namespace Cursor

/-- Both cursors are in front of the same text and have read the same since they started, `d` at
the start of a text and the other one at the offset and the position. -/
structure Continues (c d : Cursor) (offset : Nat) (position : Position) (read : List Char) :
    Prop where
  rest : d.rest = c.rest
  offset : c.offset = offset + d.offset
  position : c.position = position.advance read
  start : d.position = Position.behind read

variable {c d : Cursor} {offset : Nat} {position : Position} {read : List Char}

theorem Continues.token (h : c.Continues d offset position read) (lexeme : Lexeme d.forget.rest) :
    (d.forget.token lexeme).continued offset position =
      { d.forget.token lexeme with
        span := ⟨c.offset, c.offset + byteLength lexeme.cut.taken⟩
        start := c.position
        stop := c.position.advance lexeme.cut.taken.dropLast } := by
  have hstart : position.continued d.position = c.position := by
    rw [h.start, h.position, Position.advance_eq_continued]
  have hstop : position.continued (d.position.advance lexeme.cut.taken.dropLast) =
      c.position.advance lexeme.cut.taken.dropLast := by
    rw [h.start, h.position, ← Position.advance_eq_behind, ← Position.advance_append,
      ← Position.advance_append, Position.advance_eq_behind, Position.advance_eq_continued]
  unfold Token.continued Cursor.token
  rw [h.offset, ← hstop, ← hstart, Nat.add_assoc]
  rfl

/-- Without a memory the tokens in front are the same, and it makes no difference where their text
is thought to start. -/
theorem Sound.tokens_eq {c d : Cursor} {read : List Char} (h : c.Sound)
    (hd : c.Continues d offset position read) :
    c.tokens = d.unaidedTokens.map (Token.continued offset position) := by
  have hcontinued := hd.token
  obtain ⟨rest, offset', position', memory⟩ := d
  obtain ⟨rfl, hoffset, hposition, hstart⟩ := hd
  have hsame : (forget ⟨c.rest, offset', position', memory⟩).lexeme? = c.lexeme? :=
    (h.ofText?_eq offset').symm
  cases hlexeme : c.lexeme? with
  | none =>
    rw [tokens_eq_nil hlexeme, unaidedTokens_eq_nil (hsame.trans hlexeme)]
    rfl
  | some lexeme =>
    have hnext : (c.pass lexeme).Continues
        ((forget ⟨c.rest, offset', position', memory⟩).move lexeme.cut) offset position
        (read ++ lexeme.cut.taken) := by
      refine ⟨(pass_rest c lexeme).symm, ?_, ?_, ?_⟩
      · rw [offset_pass, hoffset, Nat.add_assoc]
        rfl
      · rw [position_pass, hposition, Position.advance_append]
      · rw [← Position.advance_eq_behind, Position.advance_append, Position.advance_eq_behind,
          ← hstart]
        rfl
    have hpass : (c.pass lexeme).Sound := h.pass
    rw [tokens_eq_cons hlexeme, unaidedTokens_eq_cons (hsame.trans hlexeme), List.map_cons]
    exact List.cons_eq_cons.mpr ⟨(hcontinued lexeme).symm, Sound.tokens_eq hpass hnext⟩
termination_by c.rest.length
decreasing_by
  rw [pass_rest]
  exact lexeme.cut.length_rest_lt lexeme.taken_ne_nil

end Cursor

/-- Whatever calls have led a cursor through a text, its memory has changed nothing. The calls have
told what they tell, and have led where they lead, if the memory is emptied around each of them;
the same goes for the next call. The tokens in front of the cursor are those that the text in front
of it has by itself, without a memory, with bytes and positions that go on from the cursor's. So
they depend on how far the cursor has come, and not on the calls that have brought it there. -/
theorem foldl_after_forget (text : String) (calls : List Cursor.Call) :
    let c := calls.foldl Cursor.after (Cursor.ofString text)
    let d := calls.foldl Cursor.afterUnaided (Cursor.ofString text)
    c.forget = d ∧
      (∀ call, (c.call call).1 = (d.call call).1 ∧ (c.after call).forget = d.afterUnaided call) ∧
      c.tokens =
        (Cursor.unaidedTokens { rest := c.rest }).map (Token.continued c.offset c.position) ∧
      ∀ others : List Cursor.Call,
        (others.foldl Cursor.after (Cursor.ofString text)).offset = c.offset →
          (others.foldl Cursor.after (Cursor.ofString text)).tokens = c.tokens := by
  have hstart := Cursor.sound_ofString text
  have htokens (c : Cursor) (h : c.Sound) : c.tokens =
      (Cursor.unaidedTokens { rest := c.rest }).map (Token.continued c.offset c.position) := by
    have hcontinues : c.Continues { rest := c.rest } c.offset c.position [] :=
      ⟨rfl, rfl, rfl, rfl⟩
    exact h.tokens_eq hcontinues
  intro c d
  obtain ⟨hsound, hforget⟩ := hstart.foldl_after calls
  have hd : c.forget = d := hforget.symm
  refine ⟨hd, fun call ↦ ?_, htokens c hsound, fun others hoffset ↦ ?_⟩
  · obtain ⟨htold, hmoved⟩ := hsound.call_forget call
    rw [← hd]
    exact ⟨htold.symm, hmoved.symm⟩
  · obtain ⟨front, hfront⟩ := Cursor.exists_stands text calls
    obtain ⟨back, hback⟩ := Cursor.exists_stands text others
    obtain ⟨hrest, hposition⟩ := hback.eq_of_offset hfront hoffset
    rw [htokens _ (hstart.foldl_after others).1, htokens c hsound, hrest, hposition, hoffset]

end Stylesheet
