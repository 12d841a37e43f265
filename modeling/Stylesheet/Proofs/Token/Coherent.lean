import Stylesheet.Proofs.Token.Scanned

/-!
# Coherent cursors

Wherever calls have led a cursor, its offset falls between two characters of the text, it shows the
characters from there on and the position that the text before it has, it never goes back, and at
the end it stays (`coherent_foldl_after`). The registers show and answer the same, though they keep
the characters, the offset and two positions apart and replace all of them at once by those of a
copy: each call keeps them in step with the cursor (`InStep.call`).

What the two remember differs, but both are right about what they remember, so that their words end
at the same place (`Registers.exists_wordLoop`).
-/

namespace Stylesheet

open Text Stylesheet.Bracket

namespace Registers

variable {cs behind rest taken xs : List Char} {p : Progress} {m : List Nat}

/-! ## Words -/

theorem wordLoop_nil (p : Progress) (m : List Nat) : wordLoop (load [] p m) = load [] p m := by
  rw [wordLoop]
  rfl

theorem wordLoop_cons (c : Char) (cs : List Char) (p : Progress) (m : List Nat) :
    wordLoop (load (c :: cs) p m) =
      if Lexeme.endsWord c || Stylesheet.startsComment (c :: cs) then load (c :: cs) p m
      else if c = '\\' then wordLoop (load cs (p.after c) m).consume
      else if isOpener c then
        if (scanGroup (load (c :: cs) p m)).1 then wordLoop (scanGroup (load (c :: cs) p m)).2
        else (scanGroup (load (c :: cs) p m)).2
      else wordLoop (load cs (p.after c) m) := by
  rw [wordLoop, startsComment_load]
  rfl

/-- One turn of the loop passes one unit of a word. -/
theorem wordLoop_unit (h : UnitOf IsGroup wordStops behind xs)
    (hm : Memory.Sound m p.offset (xs ++ behind)) :
    wordLoop (load (xs ++ behind) p m) = wordLoop (load behind (p.through xs) m) := by
  cases h with
  | escape c =>
    rw [List.cons_append, wordLoop_cons]
    rfl
  | backslash hnil =>
    rw [hnil, List.append_nil, wordLoop_cons]
    rfl
  | whole hgroup =>
    obtain ⟨opener, more, rfl, hopener⟩ := hgroup.exists_cons
    have hnew : p.offset ∉ m := fun hmem ↦
      (hm.fails_of_mem hmem).noGroup hopener _ behind rfl hgroup
    have hends : (Lexeme.endsWord opener ||
        Stylesheet.startsComment (opener :: (more ++ behind))) = false :=
      Lexeme.plain_of_isOpener hopener _
    rw [List.cons_append, wordLoop_cons, hends, if_neg (Lexeme.ne_backslash_of_isOpener hopener),
      hopener, ← List.cons_append, scanGroup_of_group hgroup hnew]
    rfl
  | @single c hmark hstop hcomment =>
    rw [mem_wordStops_iff, not_or, Bool.not_eq_true] at hstop
    rw [List.singleton_append, wordLoop_cons, hstop.1, hcomment, if_neg hmark, if_neg hstop.2]
    rfl

/-- Whether the opener is remembered or not, the registers stay in front of it. -/
theorem exists_scanGroup {opener : Char} (hopener : isOpener opener = true)
    (hnone : NoGroup (opener :: cs)) (hm : Memory.Sound m p.offset (opener :: cs)) :
    ∃ m', scanGroup (load (opener :: cs) p m) = (false, load (opener :: cs) p m') ∧
      Memory.Sound m' p.offset (opener :: cs) := by
  by_cases hmem : p.offset ∈ m
  · exact ⟨m, if_pos hmem, hm⟩
  · cases hlookahead : lookahead p.offset (opener :: cs) with
    | group length =>
      obtain ⟨group, behind, hcs, hgroup, -⟩ := (lookahead_eq_group_iff hopener).mp hlookahead
      exact absurd hgroup (hnone group behind hcs)
    | unmatched openers =>
      refine ⟨openers ++ m, scanGroup_of_unmatched hopener hmem hlookahead, fun o ho ↦ ?_⟩
      obtain hleft | hold := List.mem_append.mp ho
      · exact Memory.sound_of_lookahead hlookahead o hleft
      · exact hm o hold

/-- Where no unit starts the loop ends. -/
theorem wordLoop_ends (h : Ends IsGroup wordStops rest) (hm : Memory.Sound m p.offset rest) :
    ∃ m', wordLoop (load rest p m) = load rest p m' ∧ Memory.Sound m' p.offset rest := by
  cases h with
  | nil => exact ⟨m, wordLoop_nil p m, hm⟩
  | comment cs =>
    refine ⟨m, ?_, hm⟩
    rw [wordLoop_cons]
    rfl
  | @stop c cs hstop hwhole =>
    rw [wordLoop_cons]
    cases hends : Lexeme.endsWord c || Stylesheet.startsComment (c :: cs) with
    | true => exact ⟨m, rfl, hm⟩
    | false =>
      have hopener : isOpener c = true :=
        (mem_wordStops_iff.mp hstop).resolve_left (by simp [(Bool.or_eq_false_iff.mp hends).1])
      obtain ⟨m', hscan, hm'⟩ := exists_scanGroup hopener hwhole hm
      refine ⟨m', ?_, hm'⟩
      rw [hscan, hopener, if_neg (Lexeme.ne_backslash_of_isOpener hopener)]
      rfl

/-- The loop passes the word, and what it remembers behind it is true there. -/
theorem exists_wordLoop (h : Units IsGroup wordStops rest taken)
    (hends : Ends IsGroup wordStops rest) (hm : Memory.Sound m p.offset (taken ++ rest)) :
    ∃ m', wordLoop (load (taken ++ rest) p m) = load rest (p.through taken) m' ∧
      Memory.Sound m' (p.through taken).offset rest := by
  induction h generalizing p with
  | nil => exact wordLoop_ends hends hm
  | @cons xs cs hunit _ ih =>
    rw [List.append_assoc] at hm ⊢
    have hlater : Memory.Sound m (p.through xs).offset (cs ++ rest) := by
      rw [p.through_offset]
      exact hm.behind
    rw [wordLoop_unit hunit hm, p.through_append]
    exact ih hlater

end Registers

/-! ## Calls -/

/-- The cursor and the registers stand behind `front` in the text, and what each of them remembers
is true there. -/
structure InStep (cs front : List Char) (c : Cursor) (r : Registers) : Prop where
  stands : c.Stands cs front
  sound : c.Sound
  registers : ∃ m, r = .load c.rest (Progress.behind front) m ∧ Memory.Sound m c.offset c.rest

namespace InStep

variable {cs front : List Char} {c : Cursor} {r : Registers} {m : List Nat}

/-- Both move over the cut. -/
theorem exists_move (hstands : c.Stands cs front) (hsound : c.Sound)
    (hm : Memory.Sound m c.offset c.rest) (cut : Cut c.rest)
    (hr : r = .past cut (Progress.behind front) m) :
    ∃ taken, InStep cs (front ++ taken) (c.move cut) r := by
  refine ⟨cut.taken, hstands.move cut, hsound.move cut, m, ?_, ?_⟩
  · rw [hr, Progress.behind_append]
    rfl
  · rw [← cut.taken_append_rest] at hm
    exact hm.behind

/-- There was a word if the offset has changed. -/
theorem bne_offset (p : Progress) (taken : List Char) :
    ((p.through taken).offset != p.offset) = !taken.isEmpty := by
  rw [p.through_offset]
  cases taken with
  | nil => simp
  | cons c cs =>
    have hsize := c.utf8Size_pos
    have hne : p.offset + byteLength (c :: cs) ≠ p.offset := by
      rw [byteLength_cons]
      omega
    exact bne_iff_ne.mpr hne

/-- Both pass the same word, though they remember different openers. -/
theorem word (hstands : c.Stands cs front) (hsound : c.Sound)
    (hm : Memory.Sound m c.offset c.rest) :
    (Registers.load c.rest (Progress.behind front) m).consumeWord.1 = c.skipWord.1 ∧
      InStep cs (front ++ (Lexeme.word c.unmatched c.offset c.rest).taken) c.skipWord.2
        (Registers.load c.rest (Progress.behind front) m).consumeWord.2 := by
  let cut := Lexeme.word c.unmatched c.offset c.rest
  have hmunch := hsound.munches (Cut.munches_munch _ c.offset c.rest) 0
  obtain ⟨hall, hunits, hends⟩ :=
    (Lexeme.measures_wordUnit.munches_iff (Lexeme.escaping_wordUnit [])).mp hmunch
  have hoffset : (Progress.behind front).offset = c.offset := by
    rw [Progress.behind_offset, hstands.offset]
  have hbehind : Memory.Sound m (Progress.behind front).offset (cut.taken ++ cut.rest) := by
    rw [hoffset, cut.taken_append_rest]
    exact hm
  obtain ⟨m', hloop, hm'⟩ := Registers.exists_wordLoop hunits hends hbehind
  rw [← hall, ← Progress.behind_append] at hloop
  have hlater : Memory.Sound m' (c.offset + byteLength cut.taken) cut.rest := by
    rw [← hoffset, ← Progress.through_offset]
    exact hm'
  refine ⟨?_, (hstands.move cut).learn, (hsound.move cut).learn, m', hloop, hlater⟩
  rw [Registers.consumeWord, hloop, Progress.behind_append]
  exact bne_offset (Progress.behind front) cut.taken

/-- A call tells the same and takes both as far. -/
theorem call (h : InStep cs front c r) (call : Cursor.Call) :
    (r.call call).1 = (c.call call).1 ∧
      ∃ taken, InStep cs (front ++ taken) (c.after call) (r.after call) := by
  obtain ⟨hstands, hsound, m, rfl, hm⟩ := h
  let p := Progress.behind front
  cases call with
  | step =>
    exact ⟨rfl, exists_move hstands hsound hm _ (Registers.past_characters 1 c.rest p m)⟩
  | space => exact ⟨rfl, exists_move hstands hsound hm _ (Registers.consumeSpace_load c.rest p m)⟩
  | atWord =>
    exact ⟨rfl, exists_move hstands hsound hm _ (Registers.consumeAtWord_load c.rest p m)⟩
  | quoted quote =>
    have hquoted := Registers.consumeQuoted_load quote c.rest p m
    exact ⟨congrArg some (congrArg Prod.fst hquoted),
      exists_move hstands hsound hm _ (congrArg Prod.snd hquoted)⟩
  | comment =>
    have hcomment := Registers.consumeComment_load c.rest p m
    exact ⟨congrArg some (congrArg Prod.fst hcomment),
      exists_move hstands hsound hm _ (congrArg Prod.snd hcomment)⟩
  | word =>
    obtain ⟨htold, hmoved⟩ := word hstands hsound hm
    exact ⟨congrArg some htold, _, hmoved⟩

theorem foldl_after (h : InStep cs front c r) (calls : List Cursor.Call) :
    ∃ taken, InStep cs (front ++ taken) (calls.foldl Cursor.after c)
      (calls.foldl Registers.after r) := by
  induction calls generalizing front c r with
  | nil => exact ⟨[], by rwa [List.append_nil]⟩
  | cons call calls ih =>
    obtain ⟨-, first, hfirst⟩ := h.call call
    obtain ⟨later, hlater⟩ := ih hfirst
    exact ⟨first ++ later, by rwa [← List.append_assoc]⟩

theorem ofString (text : String) :
    InStep (stripMark text.toList) [] (.ofString text) (.ofString text) where
  stands := ⟨rfl, rfl, rfl⟩
  sound := Cursor.sound_ofString text
  registers := ⟨[], rfl, Memory.sound_nil _ _⟩

end InStep

/-- What the cursor and the registers show of the text, and what their next call does. -/
structure Coherent (cs : List Char) (c : Cursor) (r : Registers) : Prop where
  /-- The offset falls between two characters. What is shown in front is the text from there on,
  and the positions are those of the character there and of the one before. -/
  place : ∃ front behind, cs = front ++ behind ∧ charactersIn? c.offset cs = some front.length ∧
    (∀ ahead, c.peek? ahead = behind[ahead]?) ∧ c.position = Position.behind front ∧
    r.last = Position.behind front.dropLast
  registers : r.offset = c.offset ∧ r.cur = c.peek? 0 ∧ r.peek = c.peek? 1 ∧
    r.peek2 = c.peek? 2 ∧ r.position = c.position
  answers : ∀ call, (r.call call).1 = (c.call call).1 ∧
    (r.after call).offset = (c.after call).offset ∧
    (r.after call).position = (c.after call).position
  forwards : ∀ call, c.offset ≤ (c.after call).offset
  word : (c.call .word).1 = some false ↔ (c.after .word).offset = c.offset
  stays : c.peek? 0 = none → ∀ call,
    (c.after call).offset = c.offset ∧ (c.after call).position = c.position

namespace InStep

variable {cs front : List Char} {c : Cursor} {r : Registers}

theorem offset_eq (h : InStep cs front c r) : r.offset = c.offset := by
  obtain ⟨hstands, -, m, rfl, -⟩ := h
  rw [hstands.offset]
  exact Progress.behind_offset front

theorem position_eq (h : InStep cs front c r) : r.position = c.position := by
  obtain ⟨hstands, -, m, rfl, -⟩ := h
  rw [hstands.position]
  exact Progress.behind_position front

theorem last_eq (h : InStep cs front c r) : r.last = Position.behind front.dropLast := by
  obtain ⟨-, -, m, rfl, -⟩ := h
  exact Progress.behind_last front

/-- The registers hold the first three characters in front. -/
theorem slots_eq (h : InStep cs front c r) :
    r.cur = c.peek? 0 ∧ r.peek = c.peek? 1 ∧ r.peek2 = c.peek? 2 := by
  obtain ⟨-, -, m, rfl, -⟩ := h
  unfold Cursor.peek? Registers.load
  rcases c.rest with _ | ⟨_, _ | ⟨_, _ | _⟩⟩ <;> exact ⟨rfl, rfl, rfl⟩

theorem word_iff (c : Cursor) :
    (c.call .word).1 = some false ↔ (c.after .word).offset = c.offset := by
  let cut := Lexeme.word c.unmatched c.offset c.rest
  have hoffset : (c.after .word).offset = c.offset + byteLength cut.taken := rfl
  have htold : (c.call .word).1 = some (!cut.taken.isEmpty) := rfl
  rw [hoffset, htold, Nat.add_eq_left, byteLength_eq_zero_iff]
  simp

/-- With nothing in front there is nowhere to go. -/
theorem stays (h : InStep cs front c r) (hend : c.peek? 0 = none) (call : Cursor.Call) :
    (c.after call).offset = c.offset ∧ (c.after call).position = c.position := by
  have hrest : c.rest = [] := List.head?_eq_none_iff.mp (List.head?_eq_getElem?.trans hend)
  obtain ⟨taken, hafter⟩ := h.stands.exists_after call
  have hall : front ++ (taken ++ (c.after call).rest) = front ++ [] := by
    rw [← List.append_assoc, hafter.text, ← hrest, h.stands.text]
  have hnil : taken = [] := (List.append_eq_nil_iff.mp (List.append_cancel_left hall)).1
  rw [hafter.offset, hafter.position, hnil, List.append_nil, h.stands.offset, h.stands.position]
  exact ⟨rfl, rfl⟩

theorem coherent (h : InStep cs front c r) : Coherent cs c r where
  place := by
    refine ⟨front, c.rest, h.stands.text.symm, ?_, fun _ ↦ rfl, h.stands.position, h.last_eq⟩
    rw [h.stands.offset, ← h.stands.text]
    exact charactersIn?_append front c.rest
  registers :=
    ⟨h.offset_eq, h.slots_eq.1, h.slots_eq.2.1, h.slots_eq.2.2, h.position_eq⟩
  answers call := by
    obtain ⟨htold, taken, hafter⟩ := h.call call
    exact ⟨htold, hafter.offset_eq, hafter.position_eq⟩
  forwards call := by
    obtain ⟨taken, hafter⟩ := h.stands.exists_after call
    rw [h.stands.offset, hafter.offset, byteLength_append]
    exact Nat.le_add_right _ _
  word := word_iff c
  stays := h.stays

end InStep

/-- Wherever calls have led a cursor in a text, it is coherent, and so are the registers. -/
theorem coherent_foldl_after (text : String) (calls : List Cursor.Call) :
    Coherent (stripMark text.toList) (calls.foldl Cursor.after (.ofString text))
      (calls.foldl Registers.after (.ofString text)) := by
  obtain ⟨front, h⟩ := (InStep.ofString text).foldl_after calls
  exact h.coherent

end Stylesheet
