import Stylesheet.Parse.Step
import Stylesheet.Proofs.Checked.Slices
import Stylesheet.Proofs.Token.Tiling

/-!
# Tokens by index

Statements are stretches of tokens, given by the index of the first and of the one behind the last
(`Sheet.Spans`). What nodes say is cut from the text by the bytes of the tokens at the two ends.
This is what the tokens say themselves (`Spans.slice_eq`), and so the fields of a node are the same
as those put together from tokens.
-/

namespace Stylesheet.Checked

open Text

/-- A text with its tokens. -/
structure Sheet where
  context : Parse.Context
  /-- Without the byte order mark. -/
  text : List Char
  tokens : Array Token
  /-- The text ends inside of a comment. -/
  openComment : Bool

def Sheet.ofText (context : Parse.Context) (text : String) : Sheet where
  context
  text := stripMark text.toList
  tokens := (tokenize text).toArray
  openComment := (tokenize text).getLast?.any fun t ↦ t.kind == .comment && t.unclosed

namespace Sheet

def token (sheet : Sheet) (index : Nat) : Run Token :=
  reach sheet.tokens[index]?

/-- The text from the first token to the last. A comment that the text ends in is closed here. -/
def slice (sheet : Sheet) (start stop : Nat) : Run String :=
  if stop ≤ start then .ok ""
  else do
    let first ← sheet.token start
    let last ← sheet.token (stop - 1)
    let text ← Checked.slice sheet.text first.span.start last.span.stop
    if sheet.openComment && stop == sheet.tokens.size then return String.ofList text ++ "*/"
    else return String.ofList text

/-- Leaves out a token of white space at the end. -/
def trimEnd (sheet : Sheet) (start stop : Nat) : Run Nat :=
  if start < stop then do
    let last ← sheet.token (stop - 1)
    if last.kind = .space then return stop - 1 else return stop
  else .ok stop

/-- Leaves out a token of white space at the start. -/
def trimStart (sheet : Sheet) (start stop : Nat) : Run Nat :=
  if start < stop then do
    let first ← sheet.token start
    if first.kind = .space then return start + 1 else return start
  else .ok start

/-- The first colon among so many tokens. -/
def findColon (sheet : Sheet) (start : Nat) : (count : Nat) → Run (Option Nat)
  | 0 => .ok none
  | count + 1 => do
    let t ← sheet.token start
    if t.kind = .colon then return some start else findColon sheet (start + 1) count

def selector (sheet : Sheet) (before : String) (start stop : Nat) : Run Selector := do
  let trimmed ← sheet.trimEnd start stop
  return ⟨before, ← sheet.slice start trimmed, ← sheet.slice trimmed stop⟩

def prelude (sheet : Sheet) (before : String) (start stop : Nat) : Run Prelude := do
  let atWord ← sheet.token start
  let name ← sliceFrom atWord.text.toList 1
  let paramsStart ← sheet.trimStart (start + 1) stop
  let paramsEnd ← sheet.trimEnd paramsStart stop
  let afterName ← sheet.slice (start + 1) paramsStart
  let params ← sheet.slice paramsStart paramsEnd
  let between ← sheet.slice paramsEnd stop
  return ⟨before, String.ofList name, afterName, params, between⟩

/-- There is no declaration without a colon. -/
def declaration (sheet : Sheet) (before : String) (start stop : Nat) :
    Run (Option Declaration) := do
  match ← sheet.findColon start (stop - start) with
  | none => return none
  | some colon =>
    let propEnd ← sheet.trimEnd start colon
    let valueStart ← sheet.trimStart (colon + 1) stop
    let written ← sheet.slice valueStart stop
    let value := dropTrailingBlanks written.toList
    let blanks ← sliceFrom written.toList (byteLength value)
    let marked ← splitMarker value
    let (value, marker) := marked.getD (value, [])
    let prop ← sheet.slice start propEnd
    let between ← sheet.slice propEnd valueStart
    return some ⟨before, prop, between, String.ofList value, marked.isSome,
      String.ofList (marker ++ blanks)⟩

/-- The tokens from one index up to another. -/
def Spans (sheet : Sheet) (start stop : Nat) (ts : List Token) : Prop :=
  ∃ before behind, sheet.tokens.toList = before ++ (ts ++ behind) ∧ start = before.length ∧
    stop = start + ts.length

/-! ## Stretches of tokens -/

section

variable {sheet : Sheet} {start stop : Nat} {t : Token} {ts us : List Token}

namespace Spans

theorem stop_eq (h : sheet.Spans start stop ts) : stop = start + ts.length := by
  obtain ⟨-, -, -, -, hstop⟩ := h
  exact hstop

theorem append_iff : sheet.Spans start stop (ts ++ us) ↔
    sheet.Spans start (start + ts.length) ts ∧ sheet.Spans (start + ts.length) stop us := by
  constructor
  · rintro ⟨before, behind, hts, rfl, rfl⟩
    refine ⟨⟨before, us ++ behind, by rw [hts, List.append_assoc], rfl, rfl⟩,
      before ++ ts, behind, ?_, ?_, ?_⟩
    · rw [hts]
      simp only [List.append_assoc]
    · rw [List.length_append]
    · rw [List.length_append, Nat.add_assoc]
  · rintro ⟨⟨before, behind, hts, rfl, -⟩, before', behind', hus, hlength, rfl⟩
    rw [← List.append_assoc] at hts
    have hfront : before ++ ts = before' :=
      (List.append_inj (hts.symm.trans hus) (by rw [List.length_append, hlength])).1
    refine ⟨before, behind', ?_, rfl, by rw [List.length_append, Nat.add_assoc]⟩
    rw [hus, ← hfront]
    simp only [List.append_assoc]

theorem token_eq (h : sheet.Spans start stop (t :: ts)) : sheet.token start = .ok t := by
  obtain ⟨before, behind, hts, rfl, -⟩ := h
  rw [token, ← Array.getElem?_toList, hts, List.cons_append,
    List.getElem?_append_right (Nat.le_refl _), Nat.sub_self, List.getElem?_cons_zero, reach_some]

theorem append {middle : Nat} (h : sheet.Spans start middle ts) (h' : sheet.Spans middle stop us) :
    sheet.Spans start stop (ts ++ us) := by
  have hmiddle := h.stop_eq
  subst hmiddle
  exact append_iff.mpr ⟨h, h'⟩

theorem nil (h : sheet.Spans start stop ts) : sheet.Spans start start [] := by
  rw [← List.nil_append ts, append_iff] at h
  exact h.1

theorem tail (h : sheet.Spans start stop (t :: ts)) : sheet.Spans (start + 1) stop ts := by
  rw [← List.singleton_append, append_iff] at h
  exact h.2

theorem token_last (h : sheet.Spans start stop (ts ++ [t])) :
    start < stop ∧ stop - 1 = start + ts.length ∧ sheet.token (stop - 1) = .ok t := by
  have hstop := h.stop_eq
  rw [List.length_append, List.length_singleton] at hstop
  have hlast : stop - 1 = start + ts.length := by omega
  refine ⟨by omega, hlast, ?_⟩
  rw [hlast]
  exact (append_iff.mp h).2.token_eq

theorem trimEnd (h : sheet.Spans start stop ts) :
    ∃ trimmed, sheet.trimEnd start stop = .ok trimmed ∧
      sheet.Spans start trimmed (splitTrailingSpace ts).1 ∧
      sheet.Spans trimmed stop (splitTrailingSpace ts).2 := by
  refine ⟨start + (splitTrailingSpace ts).1.length, ?_, ?_⟩
  · obtain rfl | ⟨front, last, rfl⟩ := List.eq_nil_or_concat ts
    · have hstop : stop = start := h.stop_eq
      rw [Sheet.trimEnd, hstop, if_neg (Nat.lt_irrefl start)]
      rfl
    · rw [List.concat_eq_append] at h ⊢
      obtain ⟨hlt, hlast, htoken⟩ := h.token_last
      rw [Sheet.trimEnd, if_pos hlt, htoken, ok_bind, splitTrailingSpace, List.getLast?_concat]
      dsimp only
      split
      · rw [hlast, List.dropLast_concat]
        rfl
      · rw [h.stop_eq]
        rfl
  · rw [← append_iff, splitTrailingSpace_append]
    exact h

theorem trimStart (h : sheet.Spans start stop ts) :
    ∃ trimmed, sheet.trimStart start stop = .ok trimmed ∧
      sheet.Spans start trimmed (splitLeadingSpace ts).1 ∧
      sheet.Spans trimmed stop (splitLeadingSpace ts).2 := by
  refine ⟨start + (splitLeadingSpace ts).1.length, ?_, ?_⟩
  · have hstop := h.stop_eq
    cases ts with
    | nil =>
      rw [List.length_nil, Nat.add_zero] at hstop
      rw [Sheet.trimStart, hstop, if_neg (Nat.lt_irrefl start)]
      rfl
    | cons t ts =>
      have hlt : start < stop := by
        rw [List.length_cons] at hstop
        omega
      rw [Sheet.trimStart, if_pos hlt, h.token_eq, ok_bind, splitLeadingSpace]
      split <;> rfl
  · rw [← append_iff, splitLeadingSpace_append]
    exact h

theorem findColon_of_plain (h : sheet.Spans start stop ts) (hplain : ∀ t ∈ ts, t.kind ≠ .colon) :
    sheet.findColon start ts.length = .ok none := by
  induction ts generalizing start with
  | nil => rfl
  | cons t ts ih =>
    obtain ⟨ht, hts⟩ := List.forall_mem_cons.mp hplain
    rw [List.length_cons, findColon, h.token_eq, ok_bind, if_neg ht]
    exact ih h.tail hts

theorem findColon_append (h : sheet.Spans start stop (ts ++ t :: us))
    (hplain : ∀ t ∈ ts, t.kind ≠ .colon) (hcolon : t.kind = .colon) :
    sheet.findColon start (ts ++ t :: us).length = .ok (some (start + ts.length)) := by
  induction ts generalizing start with
  | nil =>
    rw [List.nil_append, List.length_cons, findColon, h.token_eq, ok_bind, if_pos hcolon]
    rfl
  | cons u ts ih =>
    obtain ⟨hu, hts⟩ := List.forall_mem_cons.mp hplain
    rw [List.cons_append] at h ⊢
    rw [List.length_cons, findColon, h.token_eq, ok_bind, if_neg hu, ih h.tail hts,
      List.length_cons, Nat.add_assoc, Nat.add_comm 1]

end Spans

end

/-! ## What is cut from the text -/

section

variable {context : Parse.Context} {text : String} {start stop : Nat} {t : Token} {ts : List Token}

theorem text_ofText (context : Parse.Context) (text : String) :
    (ofText context text).text = textOf (tokenize text) := by
  rw [← @String.toList_ofList (textOf (tokenize text)), toList_textOf_tokenize, toList_withoutMark]
  rfl

theorem slice_token (context : Parse.Context) (ht : t ∈ tokenize text) :
    Checked.slice (ofText context text).text t.span.start t.span.stop = .ok t.text.toList := by
  obtain ⟨before, behind, hts⟩ := List.append_of_mem ht
  have hfollows := follows_tokenize hts
  have hslice := slice_append (textOf before) t.text.toList (textOf behind)
  rwa [← Nat.zero_add (byteLength (textOf before)), ← hfollows.first, ← hfollows.past,
    List.append_assoc, ← textOf_cons, ← textOf_append, ← hts, ← text_ofText context] at hslice

theorem sliceFrom_token (context : Parse.Context) {before : List Token}
    (hts : tokenize text = before ++ t :: ts) :
    sliceFrom (ofText context text).text t.span.start = .ok (textOf (t :: ts)) := by
  rw [text_ofText, (follows_tokenize hts).first, Nat.zero_add, hts, textOf_append]
  exact sliceFrom_append (textOf before) (textOf (t :: ts))

theorem keptText_concat {before behind : List Token}
    (hts : tokenize text = before ++ (ts ++ t :: behind)) :
    keptText (ts ++ [t]) = String.ofList (textOf ts) ++ t.kept := by
  have hkept : ∀ u ∈ ts, u.kept = u.text := by
    intro u hu
    refine Token.kept_of_closed (unclosed_of_mem_dropLast_tokenize text u ?_)
    rw [hts, List.dropLast_append_of_ne_nil (by simp), List.dropLast_append_of_ne_nil (by simp)]
    exact List.mem_append_right _ (List.mem_append_left _ hu)
  rw [keptText_append, keptText_of_kept hkept]
  simp

/-- A comment is closed where it is the last of all tokens and open. -/
theorem closes_eq (context : Parse.Context) {before behind : List Token}
    (hts : tokenize text = before ++ (ts ++ t :: behind)) :
    ((ofText context text).openComment &&
      before.length + (ts ++ [t]).length == (ofText context text).tokens.size) =
        decide (t.kind = .comment ∧ t.unclosed = true) := by
  have hsize : (ofText context text).tokens.size = (tokenize text).length := rfl
  have hopen : (ofText context text).openComment =
      (tokenize text).getLast?.any fun t ↦ t.kind == .comment && t.unclosed := rfl
  cases behind with
  | nil =>
    rw [← List.append_assoc] at hts
    rw [hsize, hopen, hts, List.getLast?_concat]
    simp [Bool.beq_eq_decide_eq]
  | cons u behind =>
    have hne : before.length + (ts.length + 1) ≠ (tokenize text).length := by
      rw [hts]
      simp
    have hclosed : t.unclosed = false := by
      refine unclosed_of_mem_dropLast_tokenize text t ?_
      rw [hts]
      simp
    simp [hsize, hne, hclosed]

theorem Spans.slice_eq (h : (ofText context text).Spans start stop ts) :
    (ofText context text).slice start stop = .ok (keptText ts) := by
  obtain rfl | ⟨front, last, rfl⟩ := List.eq_nil_or_concat ts
  · have hstop : stop = start := h.stop_eq
    rw [slice, if_pos (Nat.le_of_eq hstop)]
    rfl
  · rw [List.concat_eq_append] at h ⊢
    obtain ⟨hlt, -, hlast⟩ := h.token_last
    obtain ⟨first, more, hfront⟩ : ∃ first more, front ++ [last] = first :: more :=
      List.exists_cons_of_ne_nil (by simp)
    have hfirst : (ofText context text).token start = .ok first := (hfront ▸ h).token_eq
    obtain ⟨before, behind, hspans, rfl, rfl⟩ := h
    have hts : tokenize text = before ++ (front ++ last :: behind) := by
      simpa [ofText] using hspans
    have hstart : first.span.start = byteLength (textOf before) := by
      have hhead : tokenize text = before ++ first :: (more ++ behind) := by
        rw [hts, ← List.cons_append, ← hfront]
        simp
      rw [(follows_tokenize hhead).first, Nat.zero_add]
    have hstop : last.span.stop =
        byteLength (textOf before) + byteLength (textOf (front ++ [last])) := by
      rw [← List.append_assoc] at hts
      have hfollows := follows_tokenize hts
      rw [hfollows.past, hfollows.first]
      simp [Nat.add_assoc]
    have hslice := slice_append (textOf before) (textOf (front ++ [last])) (textOf behind)
    have hall : (ofText context text).text =
        textOf before ++ textOf (front ++ [last]) ++ textOf behind := by
      rw [text_ofText, hts]
      simp
    rw [slice, if_neg (Nat.not_le.mpr hlt), hfirst, ok_bind, hlast, ok_bind, hall, hstart, hstop,
      hslice, ok_bind, closes_eq context hts, keptText_concat hts, Token.kept]
    simp only [decide_eq_true_eq]
    split <;> simp [String.append_assoc]

/-! ## Fields -/

theorem Spans.shaped (h : (ofText context text).Spans start stop ts) : ∀ t ∈ ts, t.Shaped := by
  obtain ⟨before, behind, hts, -, -⟩ := h
  have htokens : tokenize text = before ++ (ts ++ behind) := by simpa [ofText] using hts
  intro t ht
  apply shaped_of_mem_tokenize text
  rw [htokens]
  exact List.mem_append_right _ (List.mem_append_left _ ht)

theorem Spans.selector_eq (h : (ofText context text).Spans start stop ts) (before : String) :
    (ofText context text).selector before start stop = .ok (Selector.ofTokens before ts) := by
  obtain ⟨trimmed, htrimmed, hselector, hbetween⟩ := h.trimEnd
  rw [selector, htrimmed, ok_bind, hselector.slice_eq, ok_bind, hbetween.slice_eq]
  rfl

theorem Spans.prelude_eq (h : (ofText context text).Spans start stop (t :: ts))
    (hkind : t.kind = .atWord) (before : String) :
    (ofText context text).prelude before start stop = .ok (Prelude.ofTokens before t ts) := by
  obtain ⟨name, hname⟩ := (h.shaped t List.mem_cons_self).atWord hkind
  have hslice : sliceFrom t.text.toList 1 = .ok name := by
    rw [hname, String.toList_ofList]
    exact sliceFrom_append ['@'] name
  obtain ⟨paramsStart, hparamsStart, hafterName, hbehind⟩ := h.tail.trimStart
  obtain ⟨paramsEnd, hparamsEnd, hparams, hbetween⟩ := hbehind.trimEnd
  rw [prelude, h.token_eq, ok_bind, hslice, ok_bind, hparamsStart, ok_bind, hparamsEnd, ok_bind,
    hafterName.slice_eq, ok_bind, hparams.slice_eq, ok_bind, hbetween.slice_eq, Prelude.ofTokens,
    hname]
  simp

theorem Spans.declaration_eq (h : (ofText context text).Spans start stop ts) (before : String) :
    (ofText context text).declaration before start stop =
      .ok (Declaration.ofTokens? before ts) := by
  have hcount : stop - start = ts.length := by
    rw [h.stop_eq, Nat.add_sub_cancel_left]
  have hsplit : ts.takeWhile (·.kind ≠ .colon) ++ ts.dropWhile (·.kind ≠ .colon) = ts :=
    List.takeWhile_append_dropWhile
  have hplain : ∀ t ∈ ts.takeWhile (·.kind ≠ .colon), t.kind ≠ .colon := fun t ht ↦ by
    simpa using List.all_eq_true.mp List.all_takeWhile t ht
  have hstop := List.head?_dropWhile_not (fun t : Token ↦ t.kind ≠ .colon) ts
  rw [declaration, hcount]
  unfold Declaration.ofTokens?
  cases hbehind : ts.dropWhile (·.kind ≠ .colon) with
  | nil =>
    rw [hbehind, List.append_nil] at hsplit
    rw [hsplit] at hplain
    rw [h.findColon_of_plain hplain]
    rfl
  | cons colon behind =>
    rw [hbehind] at hsplit hstop
    have hcolon : colon.kind = .colon := by simpa using hstop
    generalize ts.takeWhile (·.kind ≠ .colon) = front at hsplit hplain
    subst hsplit
    obtain ⟨hfront, hrest⟩ := append_iff.mp h
    obtain ⟨hmark, -⟩ := append_iff.mp (List.singleton_append ▸ hrest)
    obtain ⟨propEnd, hpropEnd, hprop, hspaceBefore⟩ := hfront.trimEnd
    obtain ⟨valueStart, hvalueStart, hspaceAfter, hvalue⟩ := hrest.tail.trimStart
    have hbetween := hspaceBefore.append (hmark.append hspaceAfter)
    have hblanks (written : List Char) :
        sliceFrom written (byteLength (dropTrailingBlanks written)) =
          .ok (trailingBlanks written) := by
      have hslice := sliceFrom_append (dropTrailingBlanks written) (trailingBlanks written)
      rwa [drop_append_trailingBlanks] at hslice
    rw [h.findColon_append hplain hcolon, ok_bind]
    dsimp only
    rw [hpropEnd, ok_bind, hvalueStart, ok_bind, hvalue.slice_eq, ok_bind, hblanks, ok_bind,
      splitMarker_eq, ok_bind, hprop.slice_eq, ok_bind, hbetween.slice_eq]
    rfl

end

end Sheet

end Stylesheet.Checked
