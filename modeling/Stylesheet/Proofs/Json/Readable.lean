import Stylesheet.Json.Basic

/-!
# The text of a value determines the value

Texts of values are read back without looking ahead: what is escaped shows where it ends
(`escape_append_inj`), a quoted string ends at the first quote that is not escaped
(`quoted_append_inj`), and only a number has to be followed by something that is no digit
(`chars_append_inj`). So different values have different texts (`text_injective`).
-/

namespace Stylesheet

namespace Json

/-! ## Texts as lists of characters -/

def quoted (s : String) : List Char :=
  '"' :: s.toList.flatMap escape ++ ['"']

mutual

def chars : Json → List Char
  | bool true => ['t', 'r', 'u', 'e']
  | bool false => ['f', 'a', 'l', 's', 'e']
  | number n => n.repr.toList
  | string s => quoted s
  | list [] => ['[', ']']
  | list (j :: items) => '[' :: (chars j ++ (itemsBehind items ++ [']']))
  | object [] => ['{', '}']
  | object ((key, j) :: members) =>
    '{' :: (quoted key ++ ':' :: (chars j ++ (membersBehind members ++ ['}'])))

def itemsBehind : List Json → List Char
  | [] => []
  | j :: items => ',' :: (chars j ++ itemsBehind items)

def membersBehind : List (String × Json) → List Char
  | [] => []
  | (key, j) :: members => ',' :: (quoted key ++ ':' :: (chars j ++ membersBehind members))

end

theorem toList_foldl_push (out : String) (cs : List Char) :
    (cs.foldl String.push out).toList = out.toList ++ cs := by
  induction cs generalizing out with
  | nil => simp
  | cons c cs ih => simp [ih]

theorem toList_addString (out s : String) :
    (addString out s).toList = out.toList ++ quoted s := by
  have hescaped (out : String) (cs : List Char) :
      (cs.foldl (fun out c ↦ (escape c).foldl String.push out) out).toList =
        out.toList ++ cs.flatMap escape := by
    induction cs generalizing out with
    | nil => simp
    | cons c cs ih => simp [ih, toList_foldl_push]
  simp [addString, quoted, hescaped]

mutual

theorem toList_addTo (out : String) (j : Json) :
    (addTo out j).toList = out.toList ++ chars j := by
  cases j with
  | bool value => cases value <;> simp [addTo, chars]
  | number n => simp [addTo, chars]
  | string s => simp [addTo, chars, toList_addString]
  | list items =>
    cases items with
    | nil => simp [addTo, chars]
    | cons j items => simp [addTo, chars, toList_addTo _ j, toList_addItems _ items]
  | object members =>
    cases members with
    | nil => simp [addTo, chars]
    | cons member members =>
      obtain ⟨key, j⟩ := member
      simp [addTo, chars, toList_addString, toList_addTo _ j, toList_addMembers _ members]

theorem toList_addItems (out : String) (items : List Json) :
    (addItems out items).toList = out.toList ++ itemsBehind items := by
  cases items with
  | nil => simp [addItems, itemsBehind]
  | cons j items => simp [addItems, itemsBehind, toList_addTo _ j, toList_addItems _ items]

theorem toList_addMembers (out : String) (members : List (String × Json)) :
    (addMembers out members).toList = out.toList ++ membersBehind members := by
  cases members with
  | nil => simp [addMembers, membersBehind]
  | cons member members =>
    obtain ⟨key, j⟩ := member
    simp [addMembers, membersBehind, toList_addString, toList_addTo _ j,
      toList_addMembers _ members]

end

def hexValue (c : Char) : Nat :=
  if c.toNat < 'a'.toNat then c.toNat - '0'.toNat else c.toNat - 'a'.toNat + 10

theorem hexValue_hexDigit : ∀ n < 16, hexValue (hexDigit n) = n := by decide

/-- Reads a character of a quoted string. -/
def unescape? : List Char → Option (Char × List Char)
  | '\\' :: '"' :: cs => some ('"', cs)
  | '\\' :: '\\' :: cs => some ('\\', cs)
  | '\\' :: 'b' :: cs => some ('\x08', cs)
  | '\\' :: 'f' :: cs => some ('\x0c', cs)
  | '\\' :: 'n' :: cs => some ('\n', cs)
  | '\\' :: 'r' :: cs => some ('\r', cs)
  | '\\' :: 't' :: cs => some ('\t', cs)
  | '\\' :: 'u' :: _ :: _ :: high :: low :: cs =>
    some (Char.ofNat (16 * hexValue high + hexValue low), cs)
  | c :: cs => some (c, cs)
  | [] => none

theorem unescape?_escape (c : Char) (behind : List Char) :
    unescape? (escape c ++ behind) = some (c, behind) := by
  unfold escape
  split
  case h_8 hquote hbackslash _ _ _ _ _ =>
    split
    next hcontrol =>
      have hhigh := hexValue_hexDigit (c.toNat / 16) (by omega)
      have hlow := hexValue_hexDigit (c.toNat % 16) (Nat.mod_lt _ (by decide))
      have hcode : 16 * (c.toNat / 16) + c.toNat % 16 = c.toNat := Nat.div_add_mod _ _
      simp [unescape?, hhigh, hlow, hcode, Char.ofNat_toNat]
    next =>
      unfold unescape?
      split <;> simp_all
  all_goals simp [unescape?]

/-- No quote is left as it is. -/
theorem escape_append_ne_quote (c : Char) (cs behind : List Char) :
    escape c ++ cs ≠ '"' :: behind := by
  unfold escape
  split
  case h_8 hquote _ _ _ _ _ _ =>
    split
    · simp
    · intro h
      exact hquote (List.cons.inj h).1
  all_goals simp

theorem escape_append_inj {c d : Char} {cs ds : List Char}
    (h : escape c ++ cs = escape d ++ ds) : c = d ∧ cs = ds := by
  have hread := unescape?_escape c cs
  rw [h, unescape?_escape d ds] at hread
  exact Prod.mk.inj (Option.some.inj hread).symm

theorem escaped_append_inj {xs ys cs ds : List Char}
    (h : xs.flatMap escape ++ '"' :: cs = ys.flatMap escape ++ '"' :: ds) :
    xs = ys ∧ cs = ds := by
  induction xs generalizing ys with
  | nil =>
    cases ys with
    | nil => exact ⟨rfl, (List.cons.inj h).2⟩
    | cons y ys =>
      rw [List.flatMap_cons, List.append_assoc] at h
      exact absurd h.symm (escape_append_ne_quote y _ _)
  | cons x xs ih =>
    rw [List.flatMap_cons, List.append_assoc] at h
    cases ys with
    | nil => exact absurd h (escape_append_ne_quote x _ _)
    | cons y ys =>
      rw [List.flatMap_cons, List.append_assoc] at h
      obtain ⟨rfl, hlater⟩ := escape_append_inj h
      obtain ⟨rfl, hbehind⟩ := ih hlater
      exact ⟨rfl, hbehind⟩

theorem quoted_append_inj {s t : String} {cs ds : List Char}
    (h : quoted s ++ cs = quoted t ++ ds) : s = t ∧ cs = ds := by
  simp only [quoted, List.cons_append, List.append_assoc, List.cons.injEq, true_and,
    List.nil_append] at h
  obtain ⟨hsame, hbehind⟩ := escaped_append_inj h
  exact ⟨String.toList_inj.mp hsame, hbehind⟩

/-! ## Numbers -/

/-- A number may end here. -/
def NoDigit (cs : List Char) : Prop :=
  ∀ c ∈ cs.head?, c.isDigit = false

theorem noDigit_cons {c : Char} (cs : List Char) (h : c.isDigit = false) : NoDigit (c :: cs) :=
  fun _ hc ↦ Option.some.inj hc ▸ h

theorem isDigit_of_mem_repr {n : Nat} {c : Char} (h : c ∈ n.repr.toList) : c.isDigit = true := by
  rw [Nat.toList_repr] at h
  exact Nat.isDigit_of_mem_toDigits (by decide) (by decide) h

theorem repr_append_inj {m n : Nat} {cs ds : List Char} (hcs : NoDigit cs) (hds : NoDigit ds)
    (h : m.repr.toList ++ cs = n.repr.toList ++ ds) : m = n ∧ cs = ds := by
  have hdigits (n : Nat) {cs : List Char} (hcs : NoDigit cs) :
      (n.repr.toList ++ cs).takeWhile Char.isDigit = n.repr.toList := by
    rw [List.takeWhile_append_of_pos fun c hc ↦ isDigit_of_mem_repr hc]
    cases cs with
    | nil => simp
    | cons c cs => simp [hcs c rfl]
  have hsame : m.repr.toList = n.repr.toList := by rw [← hdigits m hcs, h, hdigits n hds]
  refine ⟨?_, List.append_cancel_left (hsame ▸ h)⟩
  rw [Nat.toList_repr, Nat.toList_repr] at hsame
  rw [← Nat.ofDigitChars_ten_toDigits (n := m), hsame, Nat.ofDigitChars_ten_toDigits]

/-! ## Values -/

theorem noDigit_items (items : List Json) (cs : List Char) :
    NoDigit (itemsBehind items ++ ']' :: cs) := by
  cases items with
  | nil => exact noDigit_cons _ (by decide)
  | cons j items => exact noDigit_cons _ (by decide)

theorem noDigit_members (members : List (String × Json)) (cs : List Char) :
    NoDigit (membersBehind members ++ '}' :: cs) := by
  cases members with
  | nil => exact noDigit_cons _ (by decide)
  | cons member members => exact noDigit_cons _ (by decide)

/-- The first character tells what kind of value it is. -/
def lead : Json → Char
  | bool _ => 't'
  | number _ => '0'
  | string _ => '"'
  | list _ => '['
  | object _ => '{'

def leadOf (c : Char) : Char :=
  if c = 'f' then 't' else if c.isDigit then '0' else c

theorem head?_chars_append (j : Json) (cs : List Char) :
    (chars j ++ cs).head?.map leadOf = some j.lead := by
  cases j with
  | bool value => cases value <;> rfl
  | number n =>
    cases hdigits : n.repr.toList with
    | nil => exact absurd hdigits (by simp [Nat.toList_repr])
    | cons d digits =>
      have hdigit : d.isDigit = true := isDigit_of_mem_repr (hdigits ▸ List.mem_cons_self)
      have hletter : d ≠ 'f' := by
        rintro rfl
        contradiction
      simp [chars, hdigits, leadOf, hdigit, hletter, lead]
  | string s => rfl
  | list items => cases items <;> rfl
  | object members => cases members <;> rfl

/-- No value starts with a closing bracket. -/
theorem chars_append_ne_bracket (j : Json) (cs behind : List Char) :
    chars j ++ cs ≠ ']' :: behind := by
  intro h
  have hlead := head?_chars_append j cs
  rw [h] at hlead
  cases j <;> simp [leadOf, lead] at hlead

mutual

theorem chars_append_inj (j k : Json) {cs ds : List Char} (hcs : NoDigit cs) (hds : NoDigit ds)
    (h : chars j ++ cs = chars k ++ ds) : j = k ∧ cs = ds := by
  have hlead : j.lead = k.lead := by
    rw [← Option.some.injEq, ← head?_chars_append j cs, h, head?_chars_append]
  cases j with
  | bool value =>
    cases k with
    | bool other => cases value <;> cases other <;> simp_all [chars]
    | _ => simp [lead] at hlead
  | number m =>
    cases k with
    | number n =>
      obtain ⟨rfl, hbehind⟩ := repr_append_inj hcs hds h
      exact ⟨rfl, hbehind⟩
    | _ => simp [lead] at hlead
  | string s =>
    cases k with
    | string t =>
      obtain ⟨rfl, hbehind⟩ := quoted_append_inj h
      exact ⟨rfl, hbehind⟩
    | _ => simp [lead] at hlead
  | list items =>
    cases k with
    | list others =>
      cases items with
      | nil =>
        cases others with
        | nil => exact ⟨rfl, by simpa [chars] using h⟩
        | cons k others =>
          simp only [chars, List.cons_append, List.nil_append, List.append_assoc,
            List.cons.injEq, true_and] at h
          exact absurd h.symm (chars_append_ne_bracket k _ _)
      | cons j items =>
        cases others with
        | nil =>
          simp only [chars, List.cons_append, List.nil_append, List.append_assoc,
            List.cons.injEq, true_and] at h
          exact absurd h (chars_append_ne_bracket j _ _)
        | cons k others =>
          simp only [chars, List.cons_append, List.nil_append, List.append_assoc,
            List.cons.injEq, true_and] at h
          obtain ⟨rfl, hitems⟩ := chars_append_inj j k (noDigit_items items cs)
            (noDigit_items others ds) h
          obtain ⟨rfl, hbehind⟩ := itemsBehind_append_inj items others hitems
          exact ⟨rfl, hbehind⟩
    | _ => simp [lead] at hlead
  | object members =>
    cases k with
    | object others =>
      cases members with
      | nil =>
        cases others with
        | nil => exact ⟨rfl, by simpa [chars] using h⟩
        | cons other others => simp [chars, quoted] at h
      | cons member members =>
        obtain ⟨key, j⟩ := member
        cases others with
        | nil => simp [chars, quoted] at h
        | cons other others =>
          obtain ⟨key', k⟩ := other
          simp only [chars, List.cons_append, List.nil_append, List.append_assoc,
            List.cons.injEq, true_and] at h
          obtain ⟨rfl, hvalue⟩ := quoted_append_inj h
          obtain ⟨rfl, hmembers⟩ := chars_append_inj j k (noDigit_members members cs)
            (noDigit_members others ds) (List.cons.inj hvalue).2
          obtain ⟨rfl, hbehind⟩ := membersBehind_append_inj members others hmembers
          exact ⟨rfl, hbehind⟩
    | _ => simp [lead] at hlead

theorem itemsBehind_append_inj (items others : List Json) {cs ds : List Char}
    (h : itemsBehind items ++ ']' :: cs = itemsBehind others ++ ']' :: ds) :
    items = others ∧ cs = ds := by
  cases items with
  | nil =>
    cases others with
    | nil => exact ⟨rfl, by simpa [itemsBehind] using h⟩
    | cons k others => simp [itemsBehind] at h
  | cons j items =>
    cases others with
    | nil => simp [itemsBehind] at h
    | cons k others =>
      simp only [itemsBehind, List.cons_append, List.append_assoc, List.cons.injEq,
        true_and] at h
      obtain ⟨rfl, hitems⟩ := chars_append_inj j k (noDigit_items items cs)
        (noDigit_items others ds) h
      obtain ⟨rfl, hbehind⟩ := itemsBehind_append_inj items others hitems
      exact ⟨rfl, hbehind⟩

theorem membersBehind_append_inj (members others : List (String × Json)) {cs ds : List Char}
    (h : membersBehind members ++ '}' :: cs = membersBehind others ++ '}' :: ds) :
    members = others ∧ cs = ds := by
  cases members with
  | nil =>
    cases others with
    | nil => exact ⟨rfl, by simpa [membersBehind] using h⟩
    | cons other others => simp [membersBehind] at h
  | cons member members =>
    obtain ⟨key, j⟩ := member
    cases others with
    | nil => simp [membersBehind] at h
    | cons other others =>
      obtain ⟨key', k⟩ := other
      simp only [membersBehind, List.cons_append, List.append_assoc, List.cons.injEq,
        true_and] at h
      obtain ⟨rfl, hvalue⟩ := quoted_append_inj h
      obtain ⟨rfl, hmembers⟩ := chars_append_inj j k (noDigit_members members cs)
        (noDigit_members others ds) (List.cons.inj hvalue).2
      obtain ⟨rfl, hbehind⟩ := membersBehind_append_inj members others hmembers
      exact ⟨rfl, hbehind⟩

end

end Json

end Stylesheet
