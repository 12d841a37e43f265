import Stylesheet.Proofs.Token.Loaded

/-!
# Looking for a group

In front of an opener a cursor looks for a group. It passes the group if there is one. If not, it
stays and learns of openers, and from none of them a group starts. The group is the one of the
grammar, which has no stack, and the registers come to the same with theirs
(`scansGroup_of_opener`).

Both go along the same text: the loop of the registers pushes and pops where the lookahead of the
cursor does (`Registers.agrees_run`). A word of the cursor that starts at an opener is what the
cursor finds there and the word behind it (`ScansGroup.word`).
-/

namespace Stylesheet

open Text Stylesheet.Bracket

namespace Bracket

/-- The bytes from `start` up to `stop` are a group. -/
def GroupAt (cs : List Char) (start stop : Nat) : Prop :=
  ∃ group, slice? cs start stop = some group ∧ IsGroup group

/-- At the byte offset there is an opener that no group starts with. -/
def StartsNone (cs : List Char) (offset : Nat) : Prop :=
  (∃ front opener behind, cs = front ++ opener :: behind ∧ offset = byteLength front ∧
    isOpener opener = true) ∧ ∀ stop, ¬GroupAt cs offset stop

theorem groupAt_iff {front behind : List Char} {stop : Nat} :
    GroupAt (front ++ behind) (byteLength front) stop ↔
      ∃ group rest, behind = group ++ rest ∧ IsGroup group ∧
        stop = byteLength front + byteLength group := by
  constructor
  · rintro ⟨group, hslice, hgroup⟩
    obtain ⟨front', rest, hcs, hlength, hstop⟩ := slice?_eq_some_iff.mp hslice
    rw [List.append_assoc] at hcs
    obtain ⟨rfl, hbehind⟩ := append_inj_of_byteLength hcs hlength
    exact ⟨group, rest, hbehind, hgroup, hstop⟩
  · rintro ⟨group, rest, rfl, hgroup, rfl⟩
    exact ⟨group, by rw [← List.append_assoc, slice?_append], hgroup⟩

theorem groupAt_group_iff {front group behind : List Char} {stop : Nat} (hgroup : IsGroup group) :
    GroupAt (front ++ (group ++ behind)) (byteLength front) stop ↔
      stop = byteLength front + byteLength group := by
  rw [groupAt_iff]
  constructor
  · rintro ⟨group', rest, hall, hgroup', hstop⟩
    rw [hgroup.unique hgroup' hall, hstop]
  · exact fun hstop ↦ ⟨group, behind, rfl, hgroup, hstop⟩

theorem Fails.not_groupAt {opener : Char} {behind : List Char} (h : Fails (opener :: behind))
    (hopener : isOpener opener = true) (front : List Char) (stop : Nat) :
    ¬GroupAt (front ++ opener :: behind) (byteLength front) stop := by
  intro hgroup
  obtain ⟨group, rest, hall, hgroup, -⟩ := groupAt_iff.mp hgroup
  exact h.noGroup hopener group rest hall hgroup

/-- No group starts with an opener that a lookahead leaves. -/
theorem startsNone_of_mem_lookahead {front behind : List Char} {openers : List Nat}
    (h : lookahead (byteLength front) behind = .unmatched openers) {o : Nat} (ho : o ∈ openers) :
    StartsNone (front ++ behind) o := by
  obtain ⟨inner, opener, rest, rfl, rfl, hopener, hfails⟩ := fails_of_mem_lookahead h ho
  rw [← List.append_assoc, ← byteLength_append]
  exact ⟨⟨front ++ inner, opener, rest, rfl, rfl, hopener⟩,
    hfails.not_groupAt hopener (front ++ inner)⟩

end Bracket

namespace Memory

theorem onward_cons (o : Nat) (memory : Memory) (offset : Nat) :
    onward (o :: memory) offset = if o < offset then memory.onward offset else o :: memory := by
  simp [onward, List.dropWhile_cons]

theorem onward_onward (memory : Memory) {offset offset' : Nat} (h : offset ≤ offset') :
    (memory.onward offset).onward offset' = memory.onward offset' := by
  induction memory with
  | nil => rfl
  | cons o memory ih =>
    by_cases ho : o < offset
    · rw [onward_cons, if_pos ho, ih, onward_cons, if_pos (Nat.lt_of_lt_of_le ho h)]
    · rw [onward_cons, if_neg ho]

theorem recalls_onward (memory : Memory) {offset offset' : Nat} (h : offset ≤ offset') :
    (memory.onward offset).recalls offset' = memory.recalls offset' := by
  rw [recalls, memory.onward_onward h, recalls]

theorem mem_learn {memory : Memory} {offset o : Nat} {cs : List Char}
    (h : o ∈ memory.learn offset cs) :
    o ∈ memory ∨ ∃ openers, lookahead offset cs = .unmatched openers ∧ o ∈ openers := by
  unfold Memory.learn at h
  split at h
  · exact .inl h
  · split at h
    · split at h
      · exact .inl h
      · next openers hlookahead =>
        exact (mem_foldl_insert h).symm.imp_right fun ho ↦ ⟨openers, hlookahead, ho⟩
    · exact .inl h

end Memory

namespace Registers

variable {cs : List Char} {c : Char} {p : Progress} {m : List Nat}

/-! ## The loop -/

theorem scanLoop_nil (opened : List Waiting) : scanLoop (load [] p m) opened = .error opened := by
  rw [scanLoop]
  rfl

theorem scanLoop_cons (c : Char) (cs : List Char) (opened : List Waiting) :
    scanLoop (load (c :: cs) p m) opened =
      match closerOf? c with
      | some closer => scanLoop (load cs (p.after c) m) (⟨closer, p.offset⟩ :: opened)
      | none =>
        if isCloser c then
          match opened with
          | [] => .error []
          | w :: outer =>
            if w.closer ≠ c then .error (w :: outer)
            else if outer.isEmpty then .ok (load cs (p.after c) m)
            else scanLoop (load cs (p.after c) m) outer
        else if isQuote c then
          if (Lexeme.quoted c (c :: cs)).closed then
            scanLoop (past (Lexeme.quoted c (c :: cs)) p m) opened
          else .error opened
        else if c = '\\' then scanLoop (load cs (p.after c) m).consume opened
        else scanLoop (load cs (p.after c) m) opened := by
  rw [scanLoop]
  split
  · contradiction
  · next d hd =>
    obtain rfl := Option.some.inj hd
    rw [consumeQuoted_load]
    rfl

theorem scanLoop_opener {closer : Char} (h : Pairs c closer) (opened : List Waiting) :
    scanLoop (load (c :: cs) p m) opened =
      scanLoop (load cs (p.after c) m) (⟨closer, p.offset⟩ :: opened) := by
  rw [scanLoop_cons, closerOf?_eq_some_iff.mpr h]

theorem scanLoop_closer (h : isCloser c = true) (w : Waiting) (outer : List Waiting) :
    scanLoop (load (c :: cs) p m) (w :: outer) =
      if w.closer ≠ c then .error (w :: outer)
      else if outer.isEmpty then .ok (load cs (p.after c) m)
      else scanLoop (load cs (p.after c) m) outer := by
  rw [scanLoop_cons, (closer_plain h).1, h]
  rfl

theorem scanLoop_quote (h : c ∈ quotes) (opened : List Waiting) :
    scanLoop (load (c :: cs) p m) opened =
      if (Lexeme.quoted c (c :: cs)).closed then
        scanLoop (past (Lexeme.quoted c (c :: cs)) p m) opened
      else .error opened := by
  obtain ⟨hopener, hcloser⟩ := quote_plain h
  rw [scanLoop_cons, hopener, hcloser, mem_quotes_iff.mp h]
  rfl

theorem scanLoop_escape (cs : List Char) (opened : List Waiting) :
    scanLoop (load ('\\' :: cs) p m) opened =
      scanLoop (load cs (p.after '\\') m).consume opened := by
  rw [scanLoop_cons]
  rfl

theorem scanLoop_plain (h : c ∉ marks) (opened : List Waiting) :
    scanLoop (load (c :: cs) p m) opened = scanLoop (load cs (p.after c) m) opened := by
  obtain ⟨hopener, hcloser, hquote, hbackslash⟩ := plain_of_notMem_marks h
  simp [scanLoop_cons, hopener, hcloser, hquote, hbackslash]

/-- The loop moves over the group that the lookahead finds, or leaves the openers that it leaves. -/
inductive Agrees (length : Nat) (cs : List Char) (p : Progress) (m : List Nat) :
    Lookahead → Except (List Waiting) Registers → Prop where
  | group {front behind : List Char} (h : front ++ behind = cs) :
      Agrees length cs p m (.group (length + front.length))
        (.ok (load behind (p.through front) m))
  | unmatched (opened : List Waiting) :
      Agrees length cs p m (.unmatched (opened.map Waiting.offset)) (.error opened)

theorem Agrees.behind {length : Nat} {result : Lookahead}
    {scanned : Except (List Waiting) Registers} (front : List Char)
    (h : Agrees (length + front.length) cs (p.through front) m result scanned) :
    Agrees length (front ++ cs) p m result scanned := by
  cases h with
  | @group inner behind h =>
    have hall : (front ++ inner) ++ behind = front ++ cs := by rw [List.append_assoc, h]
    have hlength : length + front.length + inner.length = length + (front ++ inner).length := by
      rw [List.length_append, Nat.add_assoc]
    rw [← Progress.through_append, hlength]
    exact .group hall
  | unmatched opened => exact .unmatched opened

/-- A string inside of a group is passed, or there is no end to it. -/
theorem quoted_cases (hquote : c ∈ quotes) (cs : List Char) :
    (∃ inner rest, cs = inner ++ c :: rest ∧ Shields false inner c ∧ escapes inner = false ∧
      (Lexeme.quoted c (c :: cs)).closed = true ∧
      past (Lexeme.quoted c (c :: cs)) p m = load rest (p.through (c :: inner ++ [c])) m) ∨
    Shields false cs c ∧ (Lexeme.quoted c (c :: cs)).closed = false := by
  have hmark := ne_backslash_of_mem_quotes hquote
  obtain ⟨inner, rest, rfl, hinner, hend⟩ | hshields := exists_quote_or_shields false cs c
  · have hstop : ∀ d ∈ (c :: rest).head?, d = c ∧ escapes inner = false := by simpa
    have hmunch := Lexeme.munches_quoted hmark hinner hstop 0
    obtain ⟨htaken, hrest, hclosed⟩ := Lexeme.quoted_eq (c := c) hmunch
    refine .inl ⟨inner, rest, rfl, hinner, hend, hclosed, ?_⟩
    rw [past, htaken, hrest]
    rfl
  · have hstop : ∀ d ∈ [].head?, d = c ∧ escapes cs = false := by simp
    have hmunch := Lexeme.munches_quoted hmark hshields hstop 0
    rw [List.append_nil] at hmunch
    obtain ⟨-, -, hclosed⟩ := Lexeme.quoted_eq (c := c) hmunch
    exact .inr ⟨hshields, hclosed⟩

/-- With the same brackets open and outside of strings, the loop and the scan come to the same. -/
theorem agrees_run {s : Scan} (hs : s.Outside) {w : Waiting} {outer : List Waiting}
    (hwaiting : s.waiting = w :: outer) {p : Progress} (hoffset : p.offset = s.offset)
    (m : List Nat) (cs : List Char) :
    Agrees s.length cs p m (s.run cs) (scanLoop (load cs p m) s.waiting) := by
  match cs with
  | [] =>
    rw [scanLoop_nil]
    exact .unmatched s.waiting
  | c :: cs =>
    have hpast : (s.past c).Outside := ⟨hs.quote, hs.escaped⟩
    have hnext : (p.after c).offset = (s.past c).offset := congrArg (· + c.utf8Size) hoffset
    have hskip (front : List Char) : (p.through front).offset = (s.skip front).offset := by
      rw [p.through_offset, hoffset]
      rfl
    obtain ⟨closer, hpairs⟩ | hcloser | hquote | rfl | hplain := mark_cases c
    · -- An opener: both put it on top of what is open.
      have hopened : ({ s.past c with waiting := ⟨closer, s.offset⟩ :: s.waiting } :
          Scan).Outside := ⟨hs.quote, hs.escaped⟩
      rw [hs.run_opener hpairs, scanLoop_opener hpairs, hoffset]
      exact (agrees_run hopened rfl hnext m cs).behind [c]
    · -- A closer: it is of the wrong kind, or it ends the group or a group inside of it.
      rw [Scan.run, hs.read_closer hwaiting hcloser, Scan.giveUp, hwaiting,
        scanLoop_closer hcloser]
      by_cases hother : w.closer ≠ c
      · rw [if_pos hother, if_pos hother]
        exact .unmatched (w :: outer)
      rw [if_neg hother, if_neg hother]
      cases outer with
      | nil =>
        have hfront : [c] ++ cs = c :: cs := rfl
        exact .group hfront
      | cons v outer =>
        have hclosed : ({ s.past c with waiting := v :: outer } : Scan).Outside :=
          ⟨hs.quote, hs.escaped⟩
        exact (agrees_run hclosed rfl hnext m cs).behind [c]
    · -- A quote: the loop takes the string at once, the scan character by character.
      rw [scanLoop_quote hquote]
      obtain ⟨inner, rest, rfl, hinner, hend, hclosed, hpassed⟩ | ⟨hshields, hclosed⟩ :=
        quoted_cases (p := p) (m := m) hquote cs
      · have hrun : s.run (c :: (inner ++ c :: rest)) = (s.skip (c :: inner ++ [c])).run rest :=
          hs.run_string hquote hinner hend rest
        have hall : c :: (inner ++ c :: rest) = (c :: inner ++ [c]) ++ rest := by simp
        rw [hrun, hclosed, if_pos rfl, hpassed, hall]
        exact (agrees_run (hs.skip _) hwaiting (hskip _) m rest).behind _
      · rw [hs.run_unclosed hquote hshields, hclosed, if_neg Bool.false_ne_true]
        exact .unmatched s.waiting
    · rw [scanLoop_escape]
      cases cs with
      | nil =>
        rw [hs.run_backslash, consume_nil, scanLoop_nil]
        exact .unmatched s.waiting
      | cons d cs =>
        rw [hs.run_escape]
        exact (agrees_run (hs.skip _) hwaiting (hskip ['\\', d]) m cs).behind ['\\', d]
    · rw [Scan.run, hs.read_plain hplain, scanLoop_plain hplain]
      exact (agrees_run hpast hwaiting hnext m cs).behind [c]
termination_by cs.length

/-! ## The group -/

/-- A bracket that is not remembered is looked at afresh. -/
theorem scanGroup_load {opener : Char} (hopener : isOpener opener = true) (hnew : p.offset ∉ m) :
    scanGroup (load (opener :: cs) p m) =
      match lookahead p.offset (opener :: cs) with
      | .group length => (true, past (Cut.characters length (opener :: cs)) p m)
      | .unmatched openers => (false, load (opener :: cs) p (openers ++ m)) := by
  obtain ⟨closer, hcloser⟩ := Option.isSome_iff_exists.mp hopener
  have hpairs := closerOf?_eq_some_iff.mp hcloser
  let start : Scan := { offset := p.offset }
  let opened : Scan := { start.past opener with waiting := [⟨closer, p.offset⟩] }
  have hstart : start.Outside := ⟨rfl, rfl⟩
  have hopened : opened.Outside := ⟨rfl, rfl⟩
  have hagrees : Agrees 0 (opener :: cs) p [] (lookahead p.offset (opener :: cs))
      (scanLoop (load (opener :: cs) p []) []) := by
    rw [lookahead, hstart.run_opener hpairs, scanLoop_opener hpairs]
    exact (agrees_run hopened rfl (p := p.after opener) rfl [] cs).behind [opener]
  have hscan : scanGroup (load (opener :: cs) p m) =
      (load (opener :: cs) p m).settle (scanLoop (load (opener :: cs) p []) []) :=
    if_neg hnew
  rw [hscan]
  generalize lookahead p.offset (opener :: cs) = result at hagrees
  generalize scanLoop (load (opener :: cs) p []) [] = scanned at hagrees
  cases hagrees with
  | unmatched opened => rfl
  | @group front behind h =>
    rw [← h, Nat.zero_add]
    simp only [past, Cut.characters, List.take_left, List.drop_left]
    rfl

/-- The copy takes over behind the group, with the memory. -/
theorem scanGroup_of_group {group behind : List Char} (hgroup : IsGroup group)
    (hnew : p.offset ∉ m) :
    scanGroup (load (group ++ behind) p m) = (true, load behind (p.through group) m) := by
  have hfound := hgroup.lookahead_append p.offset behind
  obtain ⟨opener, more, rfl, hopener⟩ := hgroup.exists_cons
  rw [List.cons_append] at hfound ⊢
  rw [scanGroup_load hopener hnew, hfound, ← List.cons_append]
  simp only [past, Cut.characters, List.take_left, List.drop_left]

/-- Without a group nothing changes but the memory. -/
theorem scanGroup_of_unmatched {opener : Char} {openers : List Nat}
    (hopener : isOpener opener = true) (hnew : p.offset ∉ m)
    (h : lookahead p.offset (opener :: cs) = .unmatched openers) :
    scanGroup (load (opener :: cs) p m) = (false, load (opener :: cs) p (openers ++ m)) := by
  rw [scanGroup_load hopener hnew, h]

end Registers

/-! ## Words -/

namespace Lexeme

theorem plain_of_isOpener {opener : Char} (hopener : isOpener opener = true) (cs : List Char) :
    (endsWord opener || startsComment (opener :: cs)) = false := by
  rw [startsComment_of_isOpener hopener, Bool.or_false]
  rcases isOpener_iff.mp hopener with rfl | rfl <;> rfl

theorem wordUnit_of_opener {opener : Char} (hopener : isOpener opener = true) (memory : Memory)
    (offset : Nat) (cs : List Char) :
    wordUnit memory offset (opener :: cs) =
      groupUnit memory offset (opener :: cs) := by
  rw [wordUnit_eq memory offset (plain_of_isOpener hopener cs),
    if_neg (ne_backslash_of_isOpener hopener), if_pos hopener]

/-- What has been remembered in front of a word plays no part in it. -/
theorem taken_word_onward (memory : Memory) (offset : Nat) (cs : List Char) :
    (word (memory.onward offset) offset cs).taken =
      (word memory offset cs).taken := by
  have hunit (o : Nat) (cs : List Char) (ho : offset ≤ o) :
      wordUnit (memory.onward offset) o cs = wordUnit memory o cs := by
    cases cs with
    | nil => rfl
    | cons c cs => simp only [wordUnit, groupUnit, memory.recalls_onward ho]
  exact ((Cut.munches_munch _ offset cs).congr hunit).taken_munch

/-- A word that starts with a group goes on behind it. -/
theorem taken_word_append {group behind : List Char} {memory : Memory} {offset : Nat}
    (hgroup : IsGroup group)
    (hunit : groupUnit memory offset (group ++ behind) = group.length) :
    (word memory offset (group ++ behind)).taken =
      group ++ (word (memory.onward (offset + byteLength group)) (offset + byteLength group)
        behind).taken := by
  obtain ⟨opener, more, hmore, hopener⟩ := hgroup.exists_cons
  have hword : wordUnit memory offset (group ++ behind) = group.length := by
    rw [hmore, List.cons_append] at hunit ⊢
    rw [wordUnit_of_opener hopener, hunit]
  have hnext := Cut.munches_munch (wordUnit memory) (offset + byteLength group) behind
  rw [taken_word_onward]
  exact (Cut.Munches.next hgroup.ne_nil hword hnext).taken_munch

end Lexeme

/-! ## The cursor -/

namespace Cursor

variable {c : Cursor} {cs front : List Char}

/-- Passes the group in front. If there is none, the cursor stays and learns of the openers that are
thereby known to start none. -/
def scanGroup (c : Cursor) : Bool × Cursor :=
  let cut := Cut.characters (Lexeme.groupUnit c.unmatched c.offset c.rest) c.rest
  (!cut.taken.isEmpty, if cut.taken.isEmpty then (c.move cut).learn else c.move cut)

theorem groupUnit_of_group {group behind : List Char} (hrest : c.rest = group ++ behind)
    (hgroup : IsGroup group) (hnew : c.unmatched.recalls c.offset = false) :
    Lexeme.groupUnit c.unmatched c.offset c.rest = group.length := by
  rw [Lexeme.groupUnit, hnew, hrest, hgroup.lookahead_append]
  rfl

/-- With a group in front the cursor passes it and keeps its memory. -/
theorem scanGroup_of_group {group behind : List Char} (hrest : c.rest = group ++ behind)
    (hgroup : IsGroup group) (hnew : c.unmatched.recalls c.offset = false) :
    c.scanGroup = (true, c.move (Cut.characters group.length c.rest)) := by
  have htaken : (c.rest.take group.length).isEmpty = false := by
    rw [hrest, List.take_left, List.isEmpty_eq_false_iff]
    exact hgroup.ne_nil
  rw [scanGroup, groupUnit_of_group hrest hgroup hnew]
  simp [Cut.characters, htaken]

/-- Without one it stays, and what it learns are openers that start none. -/
theorem scanGroup_of_unmatched {openers : List Nat}
    (h : lookahead c.offset c.rest = .unmatched openers) :
    c.scanGroup = (false, (c.move (Cut.characters 0 c.rest)).learn) := by
  have hnone : Lexeme.groupUnit c.unmatched c.offset c.rest = 0 := by
    rw [Lexeme.groupUnit, h]
    split <;> rfl
  rw [scanGroup, hnone]
  rfl

/-- One cut after the other, or both at once. -/
theorem move_andThen (c : Cursor) (first : Cut c.rest) (second : Cut first.rest) :
    (c.move first).move second = c.move (first.andThen second) := by
  have hle : c.offset + byteLength first.taken ≤
      c.offset + byteLength first.taken + byteLength second.taken := Nat.le_add_right _ _
  simp only [move, Cut.andThen, byteLength_append, Position.advance_append, ← Nat.add_assoc,
    Memory.onward_onward _ hle]

/-- Behind the group the call goes on. -/
theorem skipWord_of_group {group behind : List Char} (hrest : c.rest = group ++ behind)
    (hgroup : IsGroup group) (hnew : c.unmatched.recalls c.offset = false) :
    c.skipWord = (true, c.scanGroup.2.skipWord.2) := by
  have hunit := groupUnit_of_group hrest hgroup hnew
  rw [scanGroup_of_group hrest hgroup hnew]
  obtain ⟨rest, offset, position, memory⟩ := c
  obtain rfl : rest = group ++ behind := hrest
  let first : Cut (group ++ behind) := ⟨group, behind, true, rfl⟩
  let second := Lexeme.word (memory.onward (offset + byteLength group))
    (offset + byteLength group) behind
  have hfirst : Cut.characters group.length (group ++ behind) = first :=
    Cut.eq_of_taken List.take_left rfl
  have hword : Lexeme.word memory offset (group ++ behind) = first.andThen second :=
    Cut.eq_of_taken (Lexeme.taken_word_append hgroup hunit) rfl
  have hsome : (first.andThen second).taken.isEmpty = false :=
    List.isEmpty_eq_false_iff.mpr (List.append_ne_nil_of_left_ne_nil hgroup.ne_nil _)
  have hmoved := move_andThen ⟨group ++ behind, offset, position, memory⟩ first second
  simp only [skipWord]
  rw [hfirst, hword, hsome, ← hmoved]
  rfl

/-- No word starts with an opener that no group starts with. -/
theorem skipWord_of_unmatched {opener : Char} {more : List Char} {openers : List Nat}
    (hrest : c.rest = opener :: more) (hopener : isOpener opener = true)
    (h : lookahead c.offset c.rest = .unmatched openers) : c.skipWord = c.scanGroup := by
  have hzero : Lexeme.wordUnit c.unmatched c.offset c.rest = 0 := by
    rw [hrest, Lexeme.wordUnit_of_opener hopener, ← hrest, Lexeme.groupUnit, h]
    split <;> rfl
  have hword : Lexeme.word c.unmatched c.offset c.rest = Cut.characters 0 c.rest :=
    Cut.eq_of_taken (Cut.Munches.stop hzero).taken_munch rfl
  rw [scanGroup_of_unmatched h, skipWord, hword]
  rfl

end Cursor

/-- What it comes to that the cursor and the registers, which both stand behind `front` in the text,
look for a group. -/
structure ScansGroup (cs front : List Char) (c : Cursor) (r : Registers) : Prop where
  /-- The group is found and passed if there is one. -/
  found_iff : ∀ stop,
    (c.scanGroup.1 = true ∧ c.scanGroup.2.offset = stop) ↔ GroupAt cs c.offset stop
  unique : ∀ stop stop', GroupAt cs c.offset stop → GroupAt cs c.offset stop' → stop = stop'
  /-- If there is none, nothing changes but the memory. -/
  stays : (∀ stop, ¬GroupAt cs c.offset stop) →
    c.scanGroup.1 = false ∧ c.scanGroup.2.forget = c.forget ∧
      r.scanGroup.2 = { r with unmatched := r.scanGroup.2.unmatched }
  learned : ∀ o ∈ c.scanGroup.2.unmatched, o ∈ c.unmatched ∨ StartsNone cs o
  added : ∀ o ∈ r.scanGroup.2.unmatched, o ∈ r.unmatched ∨ StartsNone cs o
  answer : r.scanGroup.1 = c.scanGroup.1
  stands : ∃ passed,
    c.scanGroup.2.Stands cs (front ++ passed) ∧ r.scanGroup.2.Stands cs (front ++ passed)
  /-- What becomes of a word that starts here. -/
  word : c.skipWord = if c.scanGroup.1 then (true, c.scanGroup.2.skipWord.2) else c.scanGroup

section

variable {cs front : List Char} {c : Cursor} {r : Registers} {m : List Nat}

theorem scansGroup_of_group {group rest : List Char} (hc : c.Stands cs front)
    (hsplit : c.rest = group ++ rest) (hgroup : IsGroup group)
    (hnew : c.unmatched.recalls c.offset = false)
    (hfresh : (Progress.behind front).offset ∉ m) :
    ScansGroup cs front c (.load c.rest (Progress.behind front) m) := by
  have htext : cs = front ++ (group ++ rest) := by rw [← hsplit, hc.text]
  have hat (stop : Nat) : GroupAt cs c.offset stop ↔ stop = c.offset + byteLength group := by
    rw [hc.offset, htext]
    exact groupAt_group_iff hgroup
  have hscan := Cursor.scanGroup_of_group hsplit hgroup hnew
  have hpassed : (Registers.load c.rest (Progress.behind front) m).scanGroup =
      (true, .load rest (Progress.behind (front ++ group)) m) := by
    rw [hsplit, Progress.behind_append]
    exact Registers.scanGroup_of_group hgroup hfresh
  have hstands := hc.move (Cut.characters group.length c.rest)
  rw [show (Cut.characters group.length c.rest).taken = group by
    simp only [Cut.characters, hsplit, List.take_left]] at hstands
  have hend : (c.move (Cut.characters group.length c.rest)).offset =
      c.offset + byteLength group := by
    rw [hstands.offset, byteLength_append, hc.offset]
  constructor
  case found_iff =>
    intro stop
    rw [hscan, hat]
    exact ⟨fun h ↦ h.2.symm.trans hend, fun h ↦ ⟨rfl, hend.trans h.symm⟩⟩
  case unique =>
    intro stop stop' h h'
    rw [(hat stop).mp h, (hat stop').mp h']
  case stays => exact fun hnone ↦ absurd ((hat _).mpr rfl) (hnone _)
  case learned =>
    rw [hscan]
    exact fun o ho ↦ .inl (Memory.mem_of_mem_onward ho)
  case added =>
    rw [hpassed]
    exact fun o ho ↦ .inl ho
  case answer => rw [hscan, hpassed]
  case stands =>
    rw [hscan, hpassed]
    exact ⟨group, hstands, rest, by rw [htext, List.append_assoc], rfl⟩
  case word =>
    rw [Cursor.skipWord_of_group hsplit hgroup hnew, hscan]
    rfl

theorem scansGroup_of_unmatched {opener : Char} {more : List Char} {openers : List Nat}
    (hc : c.Stands cs front) (hrest : c.rest = opener :: more) (hopener : isOpener opener = true)
    (hfresh : (Progress.behind front).offset ∉ m)
    (h : lookahead c.offset c.rest = .unmatched openers) :
    ScansGroup cs front c (.load c.rest (Progress.behind front) m) := by
  have htext : cs = front ++ opener :: more := by rw [← hrest, hc.text]
  have hfront : lookahead (byteLength front) (opener :: more) = .unmatched openers := by
    rw [← hc.offset, ← hrest, h]
  have hfails : Fails (opener :: more) := (fails_iff _ _).mp ⟨openers, hfront⟩
  have hat (stop : Nat) : ¬GroupAt cs c.offset stop := by
    rw [hc.offset, htext]
    exact hfails.not_groupAt hopener front stop
  have hnone (o : Nat) (ho : o ∈ openers) : StartsNone cs o := by
    rw [htext]
    exact startsNone_of_mem_lookahead hfront ho
  have hscan := Cursor.scanGroup_of_unmatched h
  have hpassed : (Registers.load c.rest (Progress.behind front) m).scanGroup =
      (false, .load c.rest (Progress.behind front) (openers ++ m)) := by
    rw [hrest]
    apply Registers.scanGroup_of_unmatched hopener hfresh
    rw [Progress.behind_offset, hfront]
  constructor
  case found_iff =>
    intro stop
    rw [hscan]
    exact ⟨fun hfound ↦ absurd hfound.1 Bool.false_ne_true, fun hgroup ↦ absurd hgroup (hat stop)⟩
  case unique => exact fun stop _ hgroup _ ↦ absurd hgroup (hat stop)
  case stays =>
    rw [hscan, hpassed]
    exact fun _ ↦ ⟨rfl, rfl, rfl⟩
  case learned =>
    rw [hscan]
    intro o ho
    obtain hold | ⟨left, hleft, ho⟩ := Memory.mem_learn ho
    · exact .inl (Memory.mem_of_mem_onward hold)
    · have hsame : left = openers := Lookahead.unmatched.inj (hleft.symm.trans h)
      exact .inr (hnone o (hsame ▸ ho))
  case added =>
    rw [hpassed]
    exact fun o ho ↦ (List.mem_append.mp ho).symm.imp_right (hnone o)
  case answer => rw [hscan, hpassed]
  case stands =>
    rw [hscan, hpassed]
    refine ⟨[], (hc.move (Cut.characters 0 c.rest)).learn, c.rest, ?_, ?_⟩
    · rw [List.append_nil, hc.text]
    · rw [List.append_nil]
      rfl
  case word =>
    rw [Cursor.skipWord_of_unmatched hrest hopener h, hscan]
    rfl

end

/-- In front of an opener that is not yet known to start no group, the cursor and the registers find
just the group of the grammar, wherever in a text they stand and whatever they remember. -/
theorem scansGroup_of_opener {cs front : List Char} {c : Cursor} {r : Registers} {opener : Char}
    (hc : c.Stands cs front) (hr : r.Stands cs front) (hfirst : c.peek? 0 = some opener)
    (hopener : isOpener opener = true) (hnew : c.unmatched.recalls c.offset = false)
    (hfresh : r.offset ∉ r.unmatched) : ScansGroup cs front c r := by
  obtain ⟨behind, hbehind, hload⟩ := hr
  obtain rfl : behind = c.rest := List.append_cancel_left (hbehind.trans hc.text.symm)
  rw [hload] at hfresh ⊢
  obtain ⟨more, hrest⟩ : ∃ more, c.rest = opener :: more :=
    List.head?_eq_some_iff.mp (List.head?_eq_getElem?.trans hfirst)
  cases hlookahead : lookahead c.offset c.rest with
  | group length =>
    rw [hrest] at hlookahead
    obtain ⟨group, rest, hsplit, hgroup, -⟩ := (lookahead_eq_group_iff hopener).mp hlookahead
    exact scansGroup_of_group hc (hrest.trans hsplit) hgroup hnew hfresh
  | unmatched openers => exact scansGroup_of_unmatched hc hrest hopener hfresh hlookahead

/-- The round bracket behind the first letter is not closed, and neither is the square one. -/
theorem scansGroup_of_opener_unclosed :
    ∃ (c : Cursor) (r : Registers), c.Stands "é(a[b(c)".toList ['é'] ∧
      r.Stands "é(a[b(c)".toList ['é'] ∧ c.peek? 0 = some '(' ∧ isOpener '(' = true ∧
      c.unmatched.recalls c.offset = false ∧ r.offset ∉ r.unmatched ∧
      c.scanGroup.1 = false ∧ r.scanGroup.1 = false ∧ StartsNone "é(a[b(c)".toList 4 ∧
      ∀ stop, ¬GroupAt "é(a[b(c)".toList 2 stop := by
  let c := (Cursor.ofString "é(a[b(c)").step
  let r := (Registers.ofString "é(a[b(c)").consume
  have hc : c.Stands "é(a[b(c)".toList ['é'] := ⟨by decide, by decide, by decide⟩
  have hr : r.Stands "é(a[b(c)".toList ['é'] := ⟨"(a[b(c)".toList, by decide, rfl⟩
  have hnew : c.unmatched.recalls c.offset = false := by decide
  have hfresh : r.offset ∉ r.unmatched := by decide
  have hmissed : c.scanGroup.1 = false := by decide +kernel
  have hlearned : 4 ∈ c.scanGroup.2.unmatched := by decide +kernel
  have hscans := scansGroup_of_opener hc hr rfl rfl hnew hfresh
  have hnone (stop : Nat) : ¬GroupAt "é(a[b(c)".toList 2 stop := fun hgroup ↦
    absurd (hmissed.symm.trans ((hscans.found_iff stop).mpr hgroup).1) Bool.false_ne_true
  have hstarts : StartsNone "é(a[b(c)".toList 4 :=
    (hscans.learned 4 hlearned).resolve_left (by decide)
  exact ⟨c, r, hc, hr, rfl, rfl, hnew, hfresh, hmissed, hscans.answer.trans hmissed, hstarts, hnone⟩

end Stylesheet
