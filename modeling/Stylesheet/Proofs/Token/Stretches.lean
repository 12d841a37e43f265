import Stylesheet.Proofs.Token.Tiling

/-!
# Stretches of tokens

Semicolons divide the tokens of a block into stretches (`stretchesEnded`). In a block without other
blocks inside of it these are the tokens up to the next closing brace, and they can be found by the
position where the block starts (`tokensInside_eq`).
-/

namespace Stylesheet

/-- Neither part of a statement by itself nor the end of one. -/
def Token.IsSpacing (t : Token) : Prop :=
  t.kind = .space ∨ t.kind = .comment

/-- The stretches that semicolons end. -/
def stretchesEnded (ts : List Token) : List (List Token) :=
  (ts.splitOnP (·.kind == .semicolon)).dropLast

/-- The stretch is a statement without a colon. -/
def IsColonless (ts : List Token) : Prop :=
  (∃ t ∈ ts, ¬t.IsSpacing) ∧ ∀ t ∈ ts, t.kind ≠ .colon

/-- What is between the braces of the block that starts at the position, where there are no blocks
inside of it. -/
def tokensInside (ts : List Token) (start : Position) : List Token :=
  (((ts.dropWhile (·.start ≠ start)).dropWhile (·.kind ≠ .openCurly)).drop 1).takeWhile
    (·.kind ≠ .closeCurly)

/-- The last of the tokens are those behind the brace of a block that starts at the position. -/
def EndsInside (ts : List Token) (start : Position) (inside : List Token) : Prop :=
  ∃ before header brace, ts = before ++ (header ++ brace :: inside) ∧
    (∀ t ∈ (header ++ [brace]).head?, t.start = start) ∧ (∀ t ∈ header, t.kind ≠ .openCurly) ∧
    brace.kind = .openCurly ∧ ∀ t ∈ inside, t.kind ≠ .closeCurly

variable {ts inside behind : List Token} {t : Token} {start : Position}

/-! ## Stretches -/

theorem splitOnPPrepend_concat {α : Type} {p : α → Bool} {xs last : List α}
    {ended : List (List α)} {x : α} {acc : List α}
    (h : xs.splitOnPPrepend p acc = ended ++ [last]) (hx : p x = false) :
    (xs ++ [x]).splitOnPPrepend p acc = ended ++ [last ++ [x]] := by
  induction xs generalizing acc ended with
  | nil =>
    rw [List.splitOnPPrepend_nil] at h
    obtain ⟨rfl, rfl⟩ := List.append_singleton_inj.mp ((List.nil_append _).trans h)
    rw [List.nil_append, List.splitOnPPrepend_cons_neg hx, List.splitOnPPrepend_nil,
      List.reverse_cons, List.nil_append]
  | cons y xs ih =>
    rw [List.splitOnPPrepend_cons_eq_if] at h
    rw [List.cons_append, List.splitOnPPrepend_cons_eq_if]
    cases hy : p y with
    | true =>
      rw [hy, if_pos rfl, List.splitOnP_eq_splitOnPPrepend] at h
      obtain ⟨-, hnil⟩ | ⟨more, rfl, hmore⟩ := List.cons_eq_append_iff.mp h
      · exact absurd (List.cons.inj hnil).2.symm (List.splitOnPPrepend_ne_nil p xs [])
      · rw [if_pos rfl, List.splitOnP_eq_splitOnPPrepend, ih hmore]
        rfl
    | false =>
      rw [hy, if_neg Bool.false_ne_true] at h
      rw [if_neg Bool.false_ne_true]
      exact ih h

/-- What ends no stretch belongs to the last one. -/
theorem splitOnP_concat {last : List Token} {ended : List (List Token)}
    (h : ts.splitOnP (·.kind == .semicolon) = ended ++ [last]) (ht : t.kind ≠ .semicolon) :
    (ts ++ [t]).splitOnP (·.kind == .semicolon) = ended ++ [last ++ [t]] := by
  rw [List.splitOnP_eq_splitOnPPrepend] at h ⊢
  exact splitOnPPrepend_concat h (by simpa using ht)

theorem splitOnP_semicolon (h : t.kind = .semicolon) :
    (ts ++ [t]).splitOnP (·.kind == .semicolon) = ts.splitOnP (·.kind == .semicolon) ++ [[]] := by
  rw [List.splitOnP_append_cons ts [] (by simp [h]), List.splitOnP_nil]

/-! ## Inside of blocks -/

theorem EndsInside.concat (h : EndsInside ts start inside) (ht : t.kind ≠ .closeCurly) :
    EndsInside (ts ++ [t]) start (inside ++ [t]) := by
  obtain ⟨before, header, brace, rfl, hfirst, hheader, hbrace, hinside⟩ := h
  exact ⟨before, header, brace, by simp, hfirst, hheader, hbrace,
    List.forall_mem_append.mpr ⟨hinside, List.forall_mem_singleton.mpr ht⟩⟩

theorem dropWhile_append_of_head {α : Type} {p : α → Bool} {xs ys : List α}
    (hxs : ∀ x ∈ xs, p x = true) (hys : ∀ y ∈ ys.head?, p y = false) :
    (xs ++ ys).dropWhile p = ys := by
  rw [List.dropWhile_append_of_pos hxs]
  cases ys with
  | nil => rfl
  | cons y ys => rw [List.dropWhile_cons, hys y rfl, if_neg Bool.false_ne_true]

theorem takeWhile_append_of_head {α : Type} {p : α → Bool} {xs ys : List α}
    (hxs : ∀ x ∈ xs, p x = true) (hys : ∀ y ∈ ys.head?, p y = false) :
    (xs ++ ys).takeWhile p = xs := by
  rw [List.takeWhile_append_of_pos hxs]
  cases ys with
  | nil => simp
  | cons y ys => simp [hys y rfl]

/-- No other token starts at the same position, so the block is found by it. -/
theorem tokensInside_eq (hts : (ts ++ behind).Pairwise fun t u ↦ compare t.start u.start = .lt)
    (h : EndsInside ts start inside) (hbehind : ∀ t ∈ behind.head?, t.kind = .closeCurly) :
    tokensInside (ts ++ behind) start = inside := by
  obtain ⟨before, header, brace, rfl, hfirst, hheader, hbrace, hinside⟩ := h
  have hblock : before ++ (header ++ brace :: inside) ++ behind =
      before ++ (header ++ brace :: (inside ++ behind)) := by simp
  obtain ⟨first, hhead, hstart⟩ : ∃ first,
      first ∈ (header ++ brace :: (inside ++ behind)).head? ∧ first.start = start := by
    cases header with
    | nil => exact ⟨brace, rfl, hfirst brace rfl⟩
    | cons u us => exact ⟨u, rfl, hfirst u rfl⟩
  rw [hblock] at hts ⊢
  have hbefore : ∀ t ∈ before, t.start ≠ start := by
    intro t ht hsame
    have hlt := (List.pairwise_append.mp hts).2.2 t ht first (List.mem_of_mem_head? hhead)
    rw [hsame, hstart, Position.compare_eq_lt_iff] at hlt
    omega
  have hfound : ∀ t ∈ (header ++ brace :: (inside ++ behind)).head?, t.start = start := by
    intro t ht
    rwa [Option.some.inj (ht.symm.trans hhead)]
  rw [tokensInside, dropWhile_append_of_head (by simpa using hbefore) (by simpa using hfound),
    dropWhile_append_of_head (by simpa using hheader) (by simpa using hbrace), List.drop_one,
    List.tail_cons,
    takeWhile_append_of_head (by simpa using hinside) (by simpa using hbehind)]

end Stylesheet
