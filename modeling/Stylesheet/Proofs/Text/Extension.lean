import Stylesheet.Proofs.Text.Munch

/-!
# Munching on

What a munch takes from a text it takes from every longer text as well, as long as it stops inside
of the first one. Where it reaches the end, a backslash can be left without the character behind it:
`escapes` tells, and then the first character put behind is taken, too.
-/

namespace Stylesheet.Text

/-- Made of the characters that close blocks and comments. -/
def Closing (cs : List Char) : Prop :=
  ∀ c ∈ cs, c = '}' ∨ c = '*' ∨ c = '/'

/-- Whether the character behind the text is escaped, if the first one is or is not. -/
def escapesFrom (escaped : Bool) (cs : List Char) : Bool :=
  cs.foldl (fun escaped c ↦ !escaped && c == '\\') escaped

/-- The last character is a backslash that is not escaped itself. -/
def escapes (cs : List Char) : Bool :=
  escapesFrom false cs

theorem escapesFrom_append (escaped : Bool) (xs ys : List Char) :
    escapesFrom escaped (xs ++ ys) = escapesFrom (escapesFrom escaped xs) ys :=
  List.foldl_append

theorem escapes_append {xs : List Char} (h : escapes xs = false) (ys : List Char) :
    escapes (xs ++ ys) = escapes ys := by
  have hxs : escapesFrom false xs = false := h
  rw [escapes, escapesFrom_append, hxs, escapes]

namespace Cut

/-- The cut at the front of a longer text takes the same characters. -/
structure Extends {cs : List Char} (cut : Cut cs) (behind : List Char)
    (longer : Cut (cs ++ behind)) : Prop where
  taken : longer.taken = cut.taken
  rest : longer.rest = cut.rest ++ behind
  closed : longer.closed = cut.closed

variable {unit : Nat → List Char → Nat} {offset : Nat} {cs taken rest behind : List Char}

/-- Two characters decide about a unit, and one about the end, whatever is put behind the text. -/
structure Steady (unit : Nat → List Char → Nat) (behind : List Char) : Prop where
  two : ∀ offset c d cs, unit offset (c :: d :: cs ++ behind) = unit offset (c :: d :: cs)
  stop : ∀ offset c, unit offset [c] = 0 → unit offset (c :: behind) = 0

theorem Steady.next_append (h : Steady unit behind) {xs : List Char} (hxs : xs ≠ [])
    (hcs : cs ≠ []) : unit offset (xs ++ cs ++ behind) = unit offset (xs ++ cs) := by
  obtain ⟨x, xs, rfl⟩ := List.exists_cons_of_ne_nil hxs
  obtain ⟨c, cs, rfl⟩ := List.exists_cons_of_ne_nil hcs
  cases xs with
  | nil => exact h.two offset x c cs
  | cons y xs => exact h.two offset x y (xs ++ c :: cs)

theorem Steady.stop_append (h : Steady unit behind) (hcs : cs ≠ []) (hstop : unit offset cs = 0) :
    unit offset (cs ++ behind) = 0 := by
  cases cs with
  | nil => contradiction
  | cons c cs =>
    cases cs with
    | nil => exact h.stop offset c hstop
    | cons d cs => rw [h.two, hstop]

/-- A munch that leaves text behind does not see what is put behind that. -/
theorem Munches.extend (h : Munches unit offset cs taken rest) (hunit : Steady unit behind)
    (hrest : rest ≠ []) : Munches unit offset (cs ++ behind) taken (rest ++ behind) := by
  induction h with
  | nothing => contradiction
  | stop hstop => exact .stop (hunit.stop_append hrest hstop)
  | @next offset xs cs taken rest hxs hlength hnext ih =>
    have hcs : cs ≠ [] := by
      rintro rfl
      have happend := hnext.append
      simp [hrest] at happend
    have hunit := (hunit.next_append hxs hcs).trans hlength
    rw [List.append_assoc] at hunit ⊢
    exact .next hxs hunit (ih hrest)
  | short => contradiction

/-- A backslash and the character behind it are one unit, and no other unit ends with a backslash
that is not escaped itself. -/
structure Escaping (unit : Nat → List Char → Nat) : Prop where
  pair : ∀ offset c cs, unit offset ('\\' :: c :: cs) = 2
  cases : ∀ offset cs, cs ≠ [] → unit offset cs = 0 ∨
    (∃ behind, cs = '\\' :: behind ∧ unit offset cs = 2) ∨
      ∃ front behind, cs = front ++ behind ∧ unit offset cs = front.length ∧
        escapes front = false

theorem Escaping.whole (h : Escaping unit) {xs : List Char} (hxs : xs ≠ [])
    (hlength : unit offset (xs ++ cs) = xs.length) : escapes xs = false := by
  have hpos : 0 < xs.length := List.length_pos_iff.mpr hxs
  rcases h.cases offset (xs ++ cs) (by simp [hxs]) with hstop | ⟨behind, hall, htwo⟩ |
    ⟨front, behind, hall, hfront, hescapes⟩
  · omega
  · obtain ⟨x, xs, rfl⟩ := List.exists_cons_of_ne_nil hxs
    obtain ⟨rfl, -⟩ := List.cons.inj hall
    have hone : xs.length = 1 := by
      rw [List.length_cons] at hlength
      omega
    obtain ⟨y, rfl⟩ := List.length_eq_one_iff.mp hone
    rfl
  · rw [(List.append_inj hall (hlength.symm.trans hfront)).1]
    exact hescapes

theorem Escaping.short (h : Escaping unit) (hcs : cs ≠ []) (hshort : cs.length < unit offset cs) :
    cs = ['\\'] := by
  have hpos : 0 < cs.length := List.length_pos_iff.mpr hcs
  rcases h.cases offset cs hcs with hstop | ⟨behind, rfl, htwo⟩ |
    ⟨front, behind, rfl, hfront, _⟩
  · omega
  · have hempty : behind.length = 0 := by
      rw [List.length_cons] at hshort
      omega
    rw [List.eq_nil_of_length_eq_zero hempty]
  · rw [List.length_append] at hshort
    omega

/-- A munch that takes the whole text stops in front of what is put behind, unless the text ends
with a backslash that is not escaped itself. -/
theorem Munches.extend_end (h : Munches unit offset cs taken rest) (hrest : rest = [])
    (hunit : Steady unit behind) (hescaping : Escaping unit)
    (hone : ∀ offset c, unit offset [c] = 1 → unit offset (c :: behind) = 1)
    (hend : ∀ offset, unit offset behind = 0) (hescapes : escapes taken = false) :
    Munches unit offset (cs ++ behind) taken behind := by
  induction h with
  | nothing => exact .stop (hend _)
  | stop =>
    rw [hrest]
    exact .stop (hend _)
  | @next offset xs cs taken rest hxs hlength _ ih =>
    rw [escapes_append (hescaping.whole hxs hlength)] at hescapes
    have hunit : unit offset (xs ++ cs ++ behind) = xs.length := by
      by_cases hcs : cs = []
      · subst hcs
        cases xs with
        | nil => contradiction
        | cons x xs =>
          cases xs with
          | nil => exact hone offset x hlength
          | cons y xs =>
            rw [← hlength, List.append_nil]
            exact hunit.two offset x y xs
      · exact (hunit.next_append hxs hcs).trans hlength
    rw [List.append_assoc] at hunit ⊢
    exact .next hxs hunit (ih hrest hescapes)
  | @short offset cs hcs hshort =>
    rw [hescaping.short hcs hshort] at hescapes
    contradiction

/-- A brace that ends every unit bounds a munch that takes the whole text, unless it is escaped. -/
theorem Munches.extend_bounded (h : Munches unit offset cs taken rest) (hunit : Steady unit behind)
    (hescaping : Escaping unit) (hbrace : ∀ offset cs, unit offset ('}' :: cs) = 0)
    (hone : ∀ offset c cs, behind = '}' :: cs → unit offset (c :: behind) = unit offset [c])
    (hend : rest ≠ [] ∨ (∃ cs, behind = '}' :: cs) ∧ escapes taken = false) :
    Munches unit offset (cs ++ behind) taken (rest ++ behind) := by
  by_cases hrest : rest = []
  · obtain ⟨⟨behind', hbehind⟩, hescapes⟩ := hend.resolve_left fun hne ↦ hne hrest
    rw [hrest, List.nil_append]
    apply h.extend_end hrest hunit hescaping _ _ hescapes
    · intro offset c hsingle
      exact (hone offset c behind' hbehind).trans hsingle
    · intro offset
      rw [hbehind]
      exact hbrace offset behind'
  · exact h.extend hunit hrest

/-- A backslash at the end takes the first character of what is put behind. -/
theorem Munches.extend_escape {x : Char} (h : Munches unit offset cs taken rest) (hrest : rest = [])
    (hunit : Steady unit (x :: behind)) (hescaping : Escaping unit)
    (hend : ∀ offset, Munches unit offset behind [] behind) (hescapes : escapes taken = true) :
    Munches unit offset (cs ++ x :: behind) (taken ++ [x]) behind := by
  induction h with
  | nothing => contradiction
  | stop => contradiction
  | @next offset xs cs taken rest hxs hlength hnext ih =>
    rw [escapes_append (hescaping.whole hxs hlength)] at hescapes
    have hcs : cs ≠ [] := by
      rintro rfl
      have happend := hnext.append
      rw [hrest, List.append_nil] at happend
      rw [happend] at hescapes
      contradiction
    have hunit := (hunit.next_append hxs hcs).trans hlength
    rw [List.append_assoc] at hunit ⊢
    rw [List.append_assoc]
    exact .next hxs hunit (ih hrest hescapes)
  | @short offset cs hcs hshort =>
    obtain rfl := hescaping.short hcs hshort
    have hpair : unit offset (['\\', x] ++ behind) = 2 := hescaping.pair offset x behind
    have hnext := Munches.next (List.cons_ne_nil _ _) hpair (hend _)
    rwa [List.append_nil] at hnext

end Cut

end Stylesheet.Text
