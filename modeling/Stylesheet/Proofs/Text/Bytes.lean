import Stylesheet.Text.Bytes

/-!
# Bytes and slices

A text has no bytes only if it is empty. Counted in bytes, a part of a text is found again by the
lengths of what stands in front of it and of the part itself (`slice?_append`).
-/

namespace Stylesheet.Text

theorem utf8Size_ne_zero (c : Char) : c.utf8Size ≠ 0 :=
  Nat.ne_of_gt c.utf8Size_pos

theorem byteLength_eq_zero_iff {cs : List Char} : byteLength cs = 0 ↔ cs = [] := by
  cases cs with
  | nil => simp
  | cons c cs => simp [utf8Size_ne_zero]

theorem utf8ByteSize_ofList (cs : List Char) :
    (String.ofList cs).utf8ByteSize = byteLength cs := by
  induction cs with
  | nil => rfl
  | cons c cs ih => simp [String.ofList_cons, ih]

theorem charactersIn?_go (front behind : List Char) (seen : Nat) :
    charactersIn?.go (byteLength front) seen (front ++ behind) = some (seen + front.length) := by
  induction front generalizing seen with
  | nil => cases behind <;> simp [charactersIn?.go]
  | cons c front ih =>
    have hlength : seen + 1 + front.length = seen + (c :: front).length := by
      rw [List.length_cons]
      omega
    simp [charactersIn?.go, utf8Size_ne_zero, ih, hlength]

theorem charactersIn?_append (front behind : List Char) :
    charactersIn? (byteLength front) (front ++ behind) = some front.length := by
  simp [charactersIn?, charactersIn?_go]

theorem exists_of_charactersIn?_go {bytes seen n : Nat} {cs : List Char}
    (h : charactersIn?.go bytes seen cs = some n) :
    ∃ front behind, cs = front ++ behind ∧ bytes = byteLength front ∧ n = seen + front.length := by
  fun_induction charactersIn?.go bytes seen cs with
  | case1 seen => exact ⟨[], [], rfl, rfl, (Option.some.inj h).symm⟩
  | case2 => contradiction
  | case3 seen c cs => exact ⟨[], c :: cs, rfl, rfl, (Option.some.inj h).symm⟩
  | case4 bytes seen c cs hbytes hle ih =>
    obtain ⟨front, behind, rfl, hfront, hlength⟩ := ih h
    refine ⟨c :: front, behind, rfl, ?_, ?_⟩
    · rw [byteLength_cons, ← hfront, Nat.add_sub_cancel' hle]
    · rw [hlength, List.length_cons, Nat.add_assoc, Nat.add_comm 1]
  | case5 => contradiction

theorem charactersIn?_eq_some_iff {bytes n : Nat} {cs : List Char} :
    charactersIn? bytes cs = some n ↔
      ∃ front behind, cs = front ++ behind ∧ bytes = byteLength front ∧ n = front.length := by
  constructor
  · intro h
    obtain ⟨front, behind, hcs, hbytes, hlength⟩ := exists_of_charactersIn?_go h
    exact ⟨front, behind, hcs, hbytes, hlength.trans (Nat.zero_add _)⟩
  · rintro ⟨front, behind, rfl, rfl, rfl⟩
    exact charactersIn?_append front behind

/-- A text has one front of each length in bytes, if it has one. -/
theorem append_inj_of_byteLength {front behind front' behind' : List Char}
    (h : front ++ behind = front' ++ behind') (hlength : byteLength front = byteLength front') :
    front = front' ∧ behind = behind' := by
  have hfirst := charactersIn?_append front behind
  have hsecond := charactersIn?_append front' behind'
  rw [h, hlength, hsecond, Option.some.injEq] at hfirst
  exact List.append_inj h hfirst.symm

/-- A front with at least as many bytes goes on where the other ends. -/
theorem exists_append_of_byteLength_le {front behind front' behind' : List Char}
    (h : front ++ behind = front' ++ behind') (hlength : byteLength front ≤ byteLength front') :
    ∃ inner, front' = front ++ inner ∧ behind = inner ++ behind' := by
  obtain hlonger | ⟨inner, hfront, hbehind⟩ := List.append_eq_append_iff.mp h
  · exact hlonger
  · rw [hfront, byteLength_append] at hlength
    have hnil : inner = [] := byteLength_eq_zero_iff.mp (by omega)
    refine ⟨[], ?_, ?_⟩
    · rw [hfront, hnil, List.append_nil, List.append_nil]
    · rw [hbehind, hnil]
      rfl

/-- Between the bytes of two texts in front lies what the longer has more. -/
theorem slice?_append (front inner behind : List Char) :
    slice? (front ++ inner ++ behind) (byteLength front) (byteLength front + byteLength inner) =
      some inner := by
  have hfirst := charactersIn?_append front (inner ++ behind)
  have hlast := charactersIn?_append (front ++ inner) behind
  have htake : (front ++ inner ++ behind).take (front ++ inner).length = front ++ inner :=
    List.take_left
  rw [← List.append_assoc] at hfirst
  rw [byteLength_append] at hlast
  rw [slice?, hfirst, hlast]
  delta guard
  rw [if_pos (Nat.le_add_right _ _)]
  change some (((front ++ inner ++ behind).take (front ++ inner).length).drop front.length) = _
  rw [htake, List.drop_left]

theorem slice?_eq_some_iff {cs inner : List Char} {start stop : Nat} :
    slice? cs start stop = some inner ↔
      ∃ front behind, cs = front ++ inner ++ behind ∧ start = byteLength front ∧
        stop = byteLength front + byteLength inner := by
  constructor
  · intro h
    obtain ⟨_, hle, h⟩ := Option.bind_eq_some_iff.mp h
    obtain ⟨first, hfirst, h⟩ := Option.bind_eq_some_iff.mp h
    obtain ⟨last, hlast, hinner⟩ := Option.bind_eq_some_iff.mp h
    obtain ⟨front, behind, rfl, rfl, rfl⟩ := charactersIn?_eq_some_iff.mp hfirst
    obtain ⟨whole, rest, hcs, rfl, rfl⟩ := charactersIn?_eq_some_iff.mp hlast
    have hstart : byteLength front ≤ byteLength whole := by
      delta guard at hle
      split at hle
      · assumption
      · contradiction
    obtain ⟨more, rfl, rfl⟩ := exists_append_of_byteLength_le hcs hstart
    rw [hcs, List.take_left, List.drop_left] at hinner
    obtain rfl := Option.some.inj hinner
    exact ⟨front, rest, hcs, rfl, byteLength_append front more⟩
  · rintro ⟨front, behind, rfl, rfl, rfl⟩
    exact slice?_append front inner behind

end Stylesheet.Text
