import Mathlib.Logic.Function.Iterate
import Stylesheet.Proofs.Token.Calls

/-!
# A cursor of registers

The text can also be read once from front to back, with the next three characters held in registers
and nothing but the first of them ever consumed. Whatever such a cursor passes, it passes by
consuming single characters; a group is looked for on a copy, with the brackets that are open kept
on a stack, and the copy takes over if the group is found.

`Registers` is that cursor. Every loop of it ends because there are fewer characters in front after
each turn (`Registers.remaining`).
-/

namespace Stylesheet

open Text

/-- How far a text has been read. -/
structure Progress where
  /-- The byte offset of the next character. -/
  offset : Nat := 0
  position : Position := {}
  /-- The position of the character that has been consumed last. -/
  last : Position := {}

def Progress.after (p : Progress) (c : Char) : Progress where
  offset := p.offset + c.utf8Size
  position := p.position.after c
  last := p.position

structure Registers extends Progress where
  cur : Option Char
  peek : Option Char
  peek2 : Option Char
  /-- What is behind the characters in the registers. -/
  unread : List Char
  /-- The byte offsets of openers that are known to start no group. -/
  unmatched : List Nat

namespace Registers

/-- The first three characters of the text go into the registers. -/
def load (cs : List Char) (progress : Progress) (unmatched : List Nat) : Registers where
  toProgress := progress
  cur := cs.head?
  peek := cs.tail.head?
  peek2 := cs.tail.tail.head?
  unread := cs.tail.tail.tail
  unmatched := unmatched

def ofString (text : String) : Registers :=
  load (stripMark text.toList) {} []

/-- The registers move up by one character; with nothing in front they stay. -/
def consume (r : Registers) : Registers :=
  match r.cur with
  | none => r
  | some c =>
    { toProgress := r.toProgress.after c
      cur := r.peek
      peek := r.peek2
      peek2 := r.unread.head?
      unread := r.unread.tail
      unmatched := r.unmatched }

/-- How many characters are in front. -/
def remaining (r : Registers) : Nat :=
  r.cur.toList.length + r.peek.toList.length + r.peek2.toList.length + r.unread.length

variable {r : Registers} {c : Char}

theorem remaining_consume (h : r.cur = some c) : r.consume.remaining < r.remaining := by
  have hnext : r.unread.head?.toList.length + r.unread.tail.length = r.unread.length := by
    cases r.unread <;> simp [Nat.add_comm]
  simp only [consume, remaining, h, Option.toList_some, List.length_singleton]
  omega

theorem remaining_consume_le (r : Registers) : r.consume.remaining ≤ r.remaining := by
  cases h : r.cur with
  | none => simp [consume, h]
  | some c => exact Nat.le_of_lt (remaining_consume h)

theorem remaining_iterate_le (n : Nat) (r : Registers) :
    (consume^[n] r).remaining ≤ r.remaining := by
  induction n generalizing r with
  | zero => exact Nat.le_refl _
  | succ n ih => exact Nat.le_trans (ih r.consume) (remaining_consume_le r)

/-! ## Loops -/

/-- Consumes as many characters at a time as the rule says, until it says none or the text ends. -/
def consumeWhile (unit : Registers → Nat) (r : Registers) : Registers :=
  match _h : r.cur with
  | none => r
  | some _ =>
    match unit r with
    | 0 => r
    | k + 1 => consumeWhile unit (consume^[k] r.consume)
termination_by r.remaining
decreasing_by exact Nat.lt_of_le_of_lt (remaining_iterate_le k _) (remaining_consume _h)

theorem remaining_consumeWhile_le (unit : Registers → Nat) (r : Registers) :
    (consumeWhile unit r).remaining ≤ r.remaining := by
  fun_induction consumeWhile unit r with
  | case1 => exact Nat.le_refl _
  | case2 => exact Nat.le_refl _
  | case3 r c h k hunit ih =>
    exact Nat.le_trans ih (Nat.le_trans (remaining_iterate_le k _) (remaining_consume_le r))

def startsComment (r : Registers) : Bool :=
  r.cur == some '/' && r.peek == some '*'

def spaceUnit (r : Registers) : Nat :=
  if r.cur.any isBlank then 1 else 0

def quotedUnit (quote : Char) (r : Registers) : Nat :=
  if r.cur = some '\\' then 2 else if r.cur = some quote then 0 else 1

def commentUnit (r : Registers) : Nat :=
  if r.cur = some '*' ∧ r.peek = some '/' then 0 else 1

def atWordUnit (r : Registers) : Nat :=
  if r.cur.any Lexeme.endsAtWord || r.startsComment then 0
  else if r.cur = some '\\' then 2 else 1

def consumeSpace (r : Registers) : Registers :=
  consumeWhile spaceUnit r

def consumeAtWord (r : Registers) : Registers :=
  consumeWhile atWordUnit r.consume

/-- Also tells whether the closing quote was found. -/
def consumeQuoted (quote : Char) (r : Registers) : Bool × Registers :=
  let inner := consumeWhile (quotedUnit quote) r.consume
  (inner.cur.isSome, inner.consume)

/-- Also tells whether the end of the comment was found. -/
def consumeComment (r : Registers) : Bool × Registers :=
  let inner := consumeWhile commentUnit r.consume.consume
  (inner.cur.isSome, inner.consume.consume)

theorem remaining_consumeQuoted (quote : Char) (h : r.cur = some c) :
    (consumeQuoted quote r).2.remaining < r.remaining :=
  calc (consumeQuoted quote r).2.remaining
    _ ≤ (consumeWhile (quotedUnit quote) r.consume).remaining := remaining_consume_le _
    _ ≤ r.consume.remaining := remaining_consumeWhile_le _ _
    _ < r.remaining := remaining_consume h

/-! ## Groups -/

/-- Goes on to the closer of the outermost bracket, or says which openers are left. -/
def scanLoop (r : Registers) (opened : List Bracket.Waiting) :
    Except (List Bracket.Waiting) Registers :=
  match _h : r.cur with
  | none => .error opened
  | some c =>
    match Bracket.closerOf? c with
    | some closer => scanLoop r.consume (⟨closer, r.offset⟩ :: opened)
    | none =>
      if Bracket.isCloser c then
        match opened with
        | [] => .error []
        | w :: outer =>
          if w.closer ≠ c then .error (w :: outer)
          else if outer.isEmpty then .ok r.consume
          else scanLoop r.consume outer
      else if isQuote c then
        if (consumeQuoted c r).1 then scanLoop (consumeQuoted c r).2 opened else .error opened
      else if c = '\\' then scanLoop r.consume.consume opened
      else scanLoop r.consume opened
termination_by r.remaining
decreasing_by
  · exact remaining_consume _h
  · exact remaining_consume _h
  · exact remaining_consumeQuoted c _h
  · exact Nat.lt_of_le_of_lt (remaining_consume_le _) (remaining_consume _h)
  · exact remaining_consume _h

/-- If a group has been found, the copy takes over with the memory. If not, the openers that are
left are added to it. -/
def settle (r : Registers) : Except (List Bracket.Waiting) Registers → Bool × Registers
  | .ok behind => (true, { behind with unmatched := r.unmatched })
  | .error opened =>
    (false, { r with unmatched := opened.map Bracket.Waiting.offset ++ r.unmatched })

/-- Looks for a group on a copy whose memory is empty. -/
def scanGroup (r : Registers) : Bool × Registers :=
  if r.offset ∈ r.unmatched then (false, r)
  else r.settle (scanLoop { r with unmatched := [] } [])

theorem remaining_scanLoop (r : Registers) (opened : List Bracket.Waiting) {behind : Registers}
    (hbehind : scanLoop r opened = .ok behind) : behind.remaining < r.remaining := by
  fun_induction scanLoop r opened with
  | case1 => contradiction
  | case2 r opened c h closer hcloser ih => exact Nat.lt_trans (ih hbehind) (remaining_consume h)
  | case3 => contradiction
  | case4 => contradiction
  | case5 r c h => exact Except.ok.inj hbehind ▸ remaining_consume h
  | case6 r c h hnone hcloser w outer hsame hmore ih =>
    exact Nat.lt_trans (ih hbehind) (remaining_consume h)
  | case7 r opened c h hnone hcloser hquote hclosed ih =>
    exact Nat.lt_trans (ih hbehind) (remaining_consumeQuoted c h)
  | case8 => contradiction
  | case9 r opened h hnone hcloser hquote ih =>
    exact Nat.lt_of_lt_of_le (ih hbehind)
      (Nat.le_trans (remaining_consume_le _) (remaining_consume_le _))
  | case10 r opened c h hnone hcloser hquote hbackslash ih =>
    exact Nat.lt_trans (ih hbehind) (remaining_consume h)

theorem remaining_scanGroup (h : r.scanGroup.1 = true) :
    r.scanGroup.2.remaining < r.remaining := by
  unfold scanGroup at h ⊢
  split at h
  · contradiction
  next hnew =>
    rw [if_neg hnew]
    cases hscan : scanLoop { r with unmatched := [] } [] with
    | ok behind =>
      have hfewer := remaining_scanLoop _ _ hscan
      exact hfewer
    | error opened =>
      rw [hscan] at h
      contradiction

/-! ## Words -/

def wordLoop (r : Registers) : Registers :=
  match _h : r.cur with
  | none => r
  | some c =>
    if Lexeme.endsWord c || r.startsComment then r
    else if c = '\\' then wordLoop r.consume.consume
    else if Bracket.isOpener c then
      if _hfound : r.scanGroup.1 then wordLoop r.scanGroup.2 else r.scanGroup.2
    else wordLoop r.consume
termination_by r.remaining
decreasing_by
  · exact Nat.lt_of_le_of_lt (remaining_consume_le _) (remaining_consume _h)
  · exact remaining_scanGroup _hfound
  · exact remaining_consume _h

/-- Also tells whether there was a word. -/
def consumeWord (r : Registers) : Bool × Registers :=
  (r.wordLoop.offset != r.offset, r.wordLoop)

/-! ## Calls -/

/-- What the call tells, if it tells anything, and the registers behind it. -/
def call (r : Registers) : Cursor.Call → Option Bool × Registers
  | .step => (none, r.consume)
  | .space => (none, r.consumeSpace)
  | .atWord => (none, r.consumeAtWord)
  | .quoted quote => (some (consumeQuoted quote r).1, (consumeQuoted quote r).2)
  | .comment => (some r.consumeComment.1, r.consumeComment.2)
  | .word => (some r.consumeWord.1, r.consumeWord.2)

def after (r : Registers) (call : Cursor.Call) : Registers :=
  (r.call call).2

end Registers

end Stylesheet
