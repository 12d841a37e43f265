import Stylesheet.Proofs.Token.Extension
import Stylesheet.Proofs.Token.Memory

/-!
# Pieces

A piece is a token without its place. What it is followed by matters to it only where it could go
on: a piece that is closed and no stray bracket is read as it is in front of every text that it
stops at (`Piece.Leads.exchange`), however far the reading of it has looked ahead. It stops at
every other piece that has once been read behind it (`Piece.Leads.stopsAt`), save a stray bracket.
-/

namespace Stylesheet

open Text

/-! ## Groups and munches -/

/-- A group is decided where it ends, whatever follows. -/
theorem Bracket.Scan.run_exchange {s : Scan} {xs cs : List Char}
    (h : s.run (xs ++ cs) = .group (s.length + xs.length)) (behind : List Char) :
    s.run (xs ++ behind) = .group (s.length + xs.length) := by
  induction xs generalizing s with
  | nil =>
    obtain ⟨front, _, _, hne, hlength, _⟩ := group_of_run h
    have hpos := List.length_pos_iff.mpr hne
    simp only [List.length_nil] at hlength
    omega
  | cons x xs ih =>
    rw [List.cons_append, run] at h ⊢
    rcases s.read_cases x with ⟨s', hread, -, hlength⟩ | hread | ⟨hread, -⟩
    · have hsum : s.length + (x :: xs).length = s'.length + xs.length := by
        rw [hlength, List.length_cons]
        omega
      rw [hread, hsum] at h ⊢
      exact ih h
    · rw [hread] at h
      contradiction
    · rw [hread] at h ⊢
      exact h

namespace Text.Cut

variable {unit : Nat → List Char → Nat} {offset : Nat} {cs taken rest : List Char}

/-- What is left can be exchanged for any other text that ends the munch. -/
theorem Munches.exchange (h : Munches unit offset cs taken rest) (hrest : rest ≠ [])
    (behind : List Char) (hunit : ∀ offset xs ys, xs ≠ [] →
      unit offset (xs ++ (ys ++ rest)) = xs.length → unit offset (xs ++ (ys ++ behind)) = xs.length)
    (hend : behind = [] ∨ ∀ offset, unit offset behind = 0) :
    Munches unit offset (taken ++ behind) taken behind := by
  induction h with
  | nothing => contradiction
  | @stop offset cs =>
    rcases hend with rfl | hend
    · exact .nothing offset
    · exact .stop (hend offset)
  | @next offset xs cs taken rest hxs hlength hnext ih =>
    rw [← hnext.append] at hlength
    rw [List.append_assoc]
    exact .next hxs (hunit offset xs taken hxs hlength) (ih hrest hunit)
  | short => contradiction

end Text.Cut

namespace Lexeme

variable {c : Char} {cs xs ys behind rest : List Char}

/-- The text can follow a word. -/
def EndsWord (behind : List Char) : Prop :=
  ∀ c ∈ behind.head?, (endsWord c || startsComment behind) = true

/-- The text can follow an at-word. -/
def EndsAtWord (behind : List Char) : Prop :=
  ∀ c ∈ behind.head?, (endsAtWord c || startsComment behind) = true

theorem startsComment_cons_eq_false (h : startsComment (c :: (cs ++ rest)) = false)
    (hstar : ∀ d ∈ behind.head?, d ≠ '*') : startsComment (c :: (cs ++ behind)) = false := by
  cases cs with
  | cons d cs =>
    have hfront := (startsComment_append c d cs rest).symm.trans h
    exact (startsComment_append c d cs behind).trans hfront
  | nil =>
    rw [← Bool.not_eq_true, startsComment_iff]
    rintro ⟨later, hlater⟩
    have hbehind := (List.cons.inj hlater).2
    exact hstar '*' (by rw [← List.nil_append behind, hbehind]; rfl) rfl

theorem EndsWord.ne_star (h : EndsWord behind) : ∀ d ∈ behind.head?, d ≠ '*' := by
  rintro d hd rfl
  obtain ⟨later, rfl⟩ := List.head?_eq_some_iff.mp hd
  exact absurd (h '*' rfl) Bool.false_ne_true

theorem EndsAtWord.ne_star (h : EndsAtWord behind) : ∀ d ∈ behind.head?, d ≠ '*' := by
  rintro d hd rfl
  obtain ⟨later, rfl⟩ := List.head?_eq_some_iff.mp hd
  exact absurd (h '*' rfl) Bool.false_ne_true

theorem EndsWord.wordUnit_eq_zero (h : EndsWord behind) (memory : Memory) (offset : Nat) :
    wordUnit memory offset behind = 0 := by
  cases behind with
  | nil => rfl
  | cons c behind => rw [wordUnit, if_pos (h c rfl)]

theorem EndsAtWord.atWordUnit_eq_zero (h : EndsAtWord behind) : atWordUnit behind = 0 := by
  cases behind with
  | nil => rfl
  | cons c behind => rw [atWordUnit, if_pos (h c rfl)]

theorem groupUnit_exchange (offset : Nat) (hxs : xs ≠ [])
    (hunit : groupUnit [] offset (xs ++ cs) = xs.length) (behind : List Char) :
    groupUnit [] offset (xs ++ behind) = xs.length := by
  have hnone : Memory.recalls [] offset = false := rfl
  have hlookahead : Bracket.lookahead offset (xs ++ cs) = .group xs.length := by
    rw [groupUnit, hnone, if_neg Bool.false_ne_true] at hunit
    cases hresult : Bracket.lookahead offset (xs ++ cs) with
    | group length =>
      rw [hresult] at hunit
      rw [show length = xs.length from hunit]
    | unmatched openers =>
      rw [hresult] at hunit
      exact absurd (List.eq_nil_of_length_eq_zero hunit.symm) hxs
  rw [← Nat.zero_add xs.length] at hlookahead
  have hsame : Bracket.lookahead offset (xs ++ behind) = .group (0 + xs.length) :=
    Bracket.Scan.run_exchange hlookahead behind
  rw [groupUnit, hnone, if_neg Bool.false_ne_true, hsame]
  exact Nat.zero_add _

theorem EndsWord.unit_exchange (h : EndsWord behind) (offset : Nat) (hxs : xs ≠ [])
    (hunit : wordUnit [] offset (xs ++ (ys ++ rest)) = xs.length) :
    wordUnit [] offset (xs ++ (ys ++ behind)) = xs.length := by
  obtain ⟨c, xs, rfl⟩ := List.exists_cons_of_ne_nil hxs
  have hgoes : (endsWord c || startsComment (c :: (xs ++ ys ++ rest))) = false := by
    cases hstop : endsWord c || startsComment (c :: (xs ++ ys ++ rest)) with
    | false => rfl
    | true => simp [wordUnit, ← List.append_assoc, hstop] at hunit
  have hgoes' : (endsWord c || startsComment (c :: (xs ++ ys ++ behind))) = false := by
    rw [Bool.or_eq_false_iff] at hgoes ⊢
    exact ⟨hgoes.1, startsComment_cons_eq_false hgoes.2 h.ne_star⟩
  rw [List.cons_append, ← List.append_assoc] at hunit ⊢
  rw [wordUnit_eq [] offset hgoes] at hunit
  rw [wordUnit_eq [] offset hgoes']
  by_cases hbackslash : c = '\\'
  · rwa [if_pos hbackslash] at hunit ⊢
  rw [if_neg hbackslash] at hunit ⊢
  by_cases hopener : Bracket.isOpener c = true
  · rw [if_pos hopener, List.append_assoc, ← List.cons_append] at hunit ⊢
    exact groupUnit_exchange offset hxs hunit _
  · rwa [if_neg hopener] at hunit ⊢

theorem EndsAtWord.unit_exchange (h : EndsAtWord behind) (hxs : xs ≠ [])
    (hunit : atWordUnit (xs ++ (ys ++ rest)) = xs.length) :
    atWordUnit (xs ++ (ys ++ behind)) = xs.length := by
  obtain ⟨c, xs, rfl⟩ := List.exists_cons_of_ne_nil hxs
  have hgoes : (endsAtWord c || startsComment (c :: (xs ++ ys ++ rest))) = false := by
    cases hstop : endsAtWord c || startsComment (c :: (xs ++ ys ++ rest)) with
    | false => rfl
    | true => simp [atWordUnit, ← List.append_assoc, hstop] at hunit
  have hgoes' : (endsAtWord c || startsComment (c :: (xs ++ ys ++ behind))) = false := by
    rw [Bool.or_eq_false_iff] at hgoes ⊢
    exact ⟨hgoes.1, startsComment_cons_eq_false hgoes.2 h.ne_star⟩
  rw [List.cons_append, ← List.append_assoc] at hunit ⊢
  rw [atWordUnit_eq hgoes] at hunit
  rwa [atWordUnit_eq hgoes']

end Lexeme

/-! ## Pieces -/

structure Piece where
  kind : TokenKind
  text : List Char
  /-- It does not lack its closing delimiter. -/
  closed : Bool
  deriving DecidableEq

def Lexeme.piece {cs : List Char} (lexeme : Lexeme cs) : Piece :=
  ⟨lexeme.kind, lexeme.cut.taken, lexeme.cut.closed⟩

theorem Lexeme.piece_eq {cs : List Char} {lexeme : Lexeme cs} {p : Piece}
    (hkind : lexeme.kind = p.kind) (htaken : lexeme.cut.taken = p.text)
    (hclosed : lexeme.cut.closed = p.closed) : lexeme.piece = p := by
  rw [piece, hkind, htaken, hclosed]

namespace Piece

/-- In front of the text the piece is what is read first. -/
def Leads (p : Piece) (behind : List Char) : Prop :=
  ∃ cs, cs = p.text ++ behind ∧
    ∃ lexeme : Lexeme cs, Lexeme.Reads [] 0 cs lexeme ∧ lexeme.piece = p

/-- The piece does not go on with the text behind it. -/
def StopsAt (p : Piece) (behind : List Char) : Prop :=
  match p.kind with
  | .space => ∀ c ∈ behind.head?, isBlank c = false
  | .word => Lexeme.EndsWord behind
  | .atWord => Lexeme.EndsAtWord behind
  | _ => True

section

variable {c : Char} {cs behind : List Char}

theorem leads_space {xs : List Char} (hne : xs ≠ []) (hxs : ∀ x ∈ xs, isBlank x = true)
    (hbehind : ∀ c ∈ behind.head?, isBlank c = false) : Leads ⟨.space, xs, true⟩ behind := by
  obtain ⟨x, xs, rfl⟩ := List.exists_cons_of_ne_nil hne
  refine ⟨x :: (xs ++ behind), rfl, _, .space (hxs x List.mem_cons_self), ?_⟩
  have htaken : (x :: xs ++ behind).takeWhile isBlank = x :: xs := by
    rw [List.takeWhile_append_of_pos hxs]
    cases behind with
    | nil => simp
    | cons c behind => simp [hbehind c rfl]
  exact congrArg (Piece.mk .space · true) htaken

theorem leads_single {kind : TokenKind} (h : Lexeme.single? c = some kind)
    (behind : List Char) : Leads ⟨kind, [c], true⟩ behind :=
  ⟨c :: behind, rfl, _, .single h, rfl⟩

theorem leads_quoted_exchange (hquote : isQuote c = true)
    (hclosed : (Lexeme.quoted c (c :: cs)).closed = true) (behind : List Char) :
    Leads ⟨.string, (Lexeme.quoted c (c :: cs)).taken, true⟩ behind := by
  have hmunch := Cut.munches_munch (fun _ ↦ Lexeme.quotedUnit c) 0 cs
  obtain ⟨htaken, -, hfound⟩ := @Lexeme.quoted_eq _ c c _ _ hmunch
  have hne : (Cut.munch (fun _ ↦ Lexeme.quotedUnit c) 0 cs).rest ≠ [] := by
    intro hempty
    rw [hfound, hempty] at hclosed
    contradiction
  obtain ⟨d, rest, hrest⟩ := List.exists_cons_of_ne_nil hne
  have hstop := hmunch.unit_rest hne
  rw [hrest] at hmunch hstop htaken
  have hagain := hmunch.exchange (List.cons_ne_nil d rest) (d :: behind)
    (fun _ xs _ hxs hunit ↦ by
      obtain ⟨x, xs, rfl⟩ := List.exists_cons_of_ne_nil hxs
      exact hunit)
    (.inr fun _ ↦ hstop)
  obtain ⟨htaken', -, hfound'⟩ := @Lexeme.quoted_eq _ c c _ _ hagain
  refine ⟨_, ?_, _, .string hquote, Lexeme.piece_eq rfl (htaken'.trans htaken.symm) hfound'⟩
  rw [htaken]
  simp

theorem leads_comment_exchange (hclosed : (Lexeme.comment ('/' :: '*' :: cs)).closed = true)
    (behind : List Char) :
    Leads ⟨.comment, (Lexeme.comment ('/' :: '*' :: cs)).taken, true⟩ behind := by
  have hmunch := Cut.munches_munch (fun _ ↦ Lexeme.commentUnit) 0 cs
  obtain ⟨htaken, -, hfound⟩ := @Lexeme.comment_eq _ '/' '*' _ _ hmunch
  have hne : (Cut.munch (fun _ ↦ Lexeme.commentUnit) 0 cs).rest ≠ [] := by
    intro hempty
    rw [hfound, hempty] at hclosed
    contradiction
  obtain ⟨rest, hrest⟩ := Lexeme.commentUnit_eq_zero_iff.mp (hmunch.unit_rest hne)
  rw [hrest] at hmunch htaken
  have hagain := hmunch.exchange (List.cons_ne_nil _ _) ('*' :: '/' :: behind)
    (fun offset xs ys hxs hunit ↦ by
      -- Two characters decide, and the delimiter has two.
      have htwo (later : List Char) : Lexeme.commentUnit (xs ++ (ys ++ '*' :: '/' :: later)) =
          Lexeme.commentUnit (xs ++ ys ++ ['*', '/']) := by
        obtain ⟨x, xs, rfl⟩ := List.exists_cons_of_ne_nil hxs
        cases hall : xs ++ ys with
        | nil => simp [← List.append_assoc, hall, Lexeme.commentUnit]
        | cons z zs =>
          have hsteady := (Lexeme.steady_commentUnit later).two 0 x z (zs ++ ['*', '/'])
          rw [← List.append_assoc, List.cons_append, hall]
          simpa using hsteady
      rw [htwo] at hunit ⊢
      exact hunit)
    (.inr fun _ ↦ rfl)
  obtain ⟨htaken', -, hfound'⟩ := @Lexeme.comment_eq _ '/' '*' _ _ hagain
  refine ⟨_, ?_, _, .comment, Lexeme.piece_eq rfl (htaken'.trans htaken.symm) hfound'⟩
  rw [htaken]
  simp

theorem leads_atWord_exchange (hrest : (Lexeme.atWord ('@' :: cs)).rest ≠ [])
    (hbehind : Lexeme.EndsAtWord behind) :
    Leads ⟨.atWord, (Lexeme.atWord ('@' :: cs)).taken, true⟩ behind := by
  have hmunch := Cut.munches_munch (fun _ ↦ Lexeme.atWordUnit) 0 cs
  obtain ⟨htaken, hleft⟩ := @Lexeme.atWord_eq '@' _ _ _ hmunch
  have hagain := hmunch.exchange (hleft ▸ hrest) behind
    (fun _ _ _ hxs hunit ↦ hbehind.unit_exchange hxs hunit)
    (.inr fun _ ↦ hbehind.atWordUnit_eq_zero)
  obtain ⟨htaken', -⟩ := @Lexeme.atWord_eq '@' _ _ _ hagain
  refine ⟨_, ?_, _, .atWord, Lexeme.piece_eq rfl (htaken'.trans htaken.symm) rfl⟩
  rw [htaken]
  simp

theorem leads_word_exchange (plain : Lexeme.endsWord c = false)
    (noComment : startsComment (c :: cs) = false) (noSign : c ≠ '@')
    (hword : (Lexeme.word [] 0 (c :: cs)).taken ≠ [])
    (hrest : (Lexeme.word [] 0 (c :: cs)).rest ≠ []) (hbehind : Lexeme.EndsWord behind) :
    Leads ⟨.word, (Lexeme.word [] 0 (c :: cs)).taken, true⟩ behind := by
  have hmunch := Cut.munches_munch (Lexeme.wordUnit []) 0 (c :: cs)
  have hagain := hmunch.exchange hrest behind
    (fun offset _ _ hxs hunit ↦ hbehind.unit_exchange offset hxs hunit)
    (.inr fun offset ↦ hbehind.wordUnit_eq_zero [] offset)
  have hall := (Lexeme.word [] 0 (c :: cs)).taken_append_rest
  change Cut.Munches _ _ ((Lexeme.word [] 0 (c :: cs)).taken ++ behind)
    (Lexeme.word [] 0 (c :: cs)).taken _ at hagain
  generalize (Lexeme.word [] 0 (c :: cs)).taken = taken at *
  generalize (Lexeme.word [] 0 (c :: cs)).rest = rest at *
  obtain ⟨x, xs, rfl⟩ := List.exists_cons_of_ne_nil hword
  obtain ⟨rfl, rfl⟩ := List.cons.inj hall
  have hcomment : startsComment (x :: (xs ++ behind)) = false :=
    Lexeme.startsComment_cons_eq_false noComment hbehind.ne_star
  exact ⟨_, rfl, _, .word plain hcomment noSign (hagain.taken_munch ▸ List.cons_ne_nil x xs),
    Lexeme.piece_eq rfl hagain.taken_munch rfl⟩

end

/-- A piece that is closed and no stray bracket is read in the same way in front of every text that
it stops at. What is behind a word or an at-word must not be the end, though: an escape can be cut
short there. -/
theorem Leads.exchange {p : Piece} {behind : List Char} (h : p.Leads behind)
    (hclosed : p.closed = true) (hkind : p.kind ≠ .other)
    (hne : p.kind = .word ∨ p.kind = .atWord → behind ≠ []) {later : List Char}
    (hlater : p.StopsAt later) : p.Leads later := by
  obtain ⟨cs, hcs, lexeme, hread, rfl⟩ := h
  have hrest : lexeme.cut.rest = behind :=
    List.append_cancel_left (lexeme.cut.taken_append_rest.trans hcs)
  have hend : lexeme.kind = .word ∨ lexeme.kind = .atWord → lexeme.cut.rest ≠ [] := by
    rw [hrest]
    exact hne
  cases hread with
  | @space c cs blank =>
    exact leads_space (Lexeme.space_taken_ne_nil blank)
      (List.all_eq_true.mp List.all_takeWhile) hlater
  | string quote =>
    have hpiece := leads_quoted_exchange quote hclosed later
    rwa [← hclosed] at hpiece
  | comment =>
    have hpiece := leads_comment_exchange hclosed later
    rwa [← hclosed] at hpiece
  | single hsingle => exact leads_single hsingle later
  | atWord => exact leads_atWord_exchange (hend (.inr rfl)) hlater
  | word plain noComment noSign hword =>
    exact leads_word_exchange plain noComment noSign hword (hend (.inl rfl)) hlater
  | other => contradiction

end Piece

/-! ## Neighbours -/

namespace Lexeme

variable {offset : Nat} {c : Char} {cs : List Char} {lexeme : Lexeme cs}

/-- What the first character of a lexeme is, it is in front of other text, too. -/
theorem head?_taken_append (lexeme : Lexeme cs) (later : List Char) :
    (lexeme.cut.taken ++ later).head? = cs.head? := by
  obtain ⟨x, xs, hx⟩ := List.exists_cons_of_ne_nil lexeme.taken_ne_nil
  have hall := lexeme.cut.taken_append_rest
  rw [hx] at hall ⊢
  rw [← hall]
  rfl

theorem startsComment_taken_append (later : List Char) :
    startsComment ((comment ('/' :: '*' :: cs)).taken ++ later) = true := by
  rw [(comment_eq (Cut.munches_munch (fun _ ↦ commentUnit) 0 cs)).1]
  rfl

/-- A word that stops in front of a lexeme stops there for the sake of that lexeme alone. -/
theorem Reads.endsWord (h : Reads [] 0 cs lexeme) (hkind : lexeme.kind ≠ .other)
    (hstop : wordUnit [] offset cs = 0) (later : List Char) :
    EndsWord (lexeme.cut.taken ++ later) := by
  intro d hd
  rw [head?_taken_append] at hd
  have hzero : wordUnit [] 0 cs = 0 := by
    rw [← (Memory.sound_nil offset cs).wordUnit_eq 0, hstop]
  cases h with
  | @space c cs blank =>
    obtain rfl := Option.some.inj hd
    simp [Lexeme.endsWord, blank]
  | @string c cs quote =>
    obtain rfl := Option.some.inj hd
    simp [Lexeme.endsWord, quote]
  | comment => rw [startsComment_taken_append, Bool.or_true]
  | single hsingle =>
    obtain rfl := Option.some.inj hd
    rw [endsWord_eq, hsingle]
    simp
  | atWord => exact absurd hzero Nat.one_ne_zero
  | word plain noComment noSign hword =>
    exact absurd (Cut.Munches.stop hzero).taken_munch hword
  | other => contradiction

theorem Reads.endsAtWord (h : Reads [] 0 cs lexeme) (hstop : atWordUnit cs = 0)
    (later : List Char) : EndsAtWord (lexeme.cut.taken ++ later) := by
  intro d hd
  rw [head?_taken_append] at hd
  cases h with
  | @space c cs blank =>
    obtain rfl := Option.some.inj hd
    simp [Lexeme.endsAtWord, blank]
  | @string c cs quote =>
    obtain rfl := Option.some.inj hd
    simp [Lexeme.endsAtWord, quote]
  | comment => rw [startsComment_taken_append, Bool.or_true]
  | @single c cs kind hsingle =>
    obtain rfl := Option.some.inj hd
    rcases single?_isSome_iff.mp (Option.isSome_of_eq_some hsingle) with rfl | rfl | rfl | rfl
    · rfl
    · rfl
    · rfl
    · exact absurd hstop Nat.one_ne_zero
  | atWord => exact absurd hstop Nat.one_ne_zero
  | @word c cs plain noComment noSign hword =>
    obtain rfl := Option.some.inj hd
    cases hends : Lexeme.endsAtWord c with
    | true => rfl
    | false =>
      rw [atWordUnit_eq (by rw [hends, noComment]; rfl)] at hstop
      split at hstop <;> contradiction
  | @other c cs plain noComment noSign hword =>
    obtain rfl := Option.some.inj hd
    cases hends : Lexeme.endsAtWord c with
    | true => rfl
    | false =>
      rw [atWordUnit_eq (by rw [hends, noComment]; rfl)] at hstop
      split at hstop <;> contradiction

end Lexeme

namespace Piece

variable {p q : Piece} {behind later : List Char}

theorem Leads.text_ne_nil (h : p.Leads behind) : p.text ≠ [] := by
  obtain ⟨cs, -, lexeme, -, rfl⟩ := h
  exact lexeme.taken_ne_nil

/-- White space is told by its first character. -/
theorem Leads.isBlank_head_iff (h : p.Leads behind) {c : Char} (hc : c ∈ p.text.head?) :
    isBlank c = true ↔ p.kind = .space := by
  obtain ⟨cs, -, lexeme, hread, rfl⟩ := h
  have hhead : cs.head? = some c := by
    rw [← lexeme.head?_taken_append [], List.append_nil]
    exact hc
  cases hread with
  | space blank =>
    obtain rfl := Option.some.inj hhead
    simp [Lexeme.piece, blank]
  | string quote =>
    obtain rfl := Option.some.inj hhead
    simp [Lexeme.piece, Lexeme.isBlank_of_isQuote quote]
  | comment =>
    obtain rfl := Option.some.inj hhead
    simp [Lexeme.piece, isBlank]
  | @single d ds kind hsingle =>
    obtain rfl := Option.some.inj hhead
    obtain rfl | rfl | rfl | rfl :=
        Lexeme.single?_isSome_iff.mp (Option.isSome_of_eq_some hsingle) <;>
      obtain rfl := Option.some.inj hsingle <;> simp [Lexeme.piece, isBlank]
  | atWord =>
    obtain rfl := Option.some.inj hhead
    simp [Lexeme.piece, isBlank]
  | word plain | other plain =>
    obtain rfl := Option.some.inj hhead
    simp only [Lexeme.endsWord_eq, Bool.or_eq_false_iff] at plain
    simp [Lexeme.piece, plain.1.1]

theorem Leads.head?_append (h : p.Leads behind) (hkind : p.kind ≠ .space) (later : List Char) :
    ∀ c ∈ (p.text ++ later).head?, isBlank c = false := by
  intro c hc
  obtain ⟨d, ds, hd⟩ := List.exists_cons_of_ne_nil h.text_ne_nil
  have hfirst : c ∈ p.text.head? := by
    rw [hd] at hc ⊢
    exact hc
  rw [← Bool.not_eq_true, h.isBlank_head_iff hfirst]
  exact hkind

theorem Leads.isBlank_of_space (h : p.Leads behind) (hkind : p.kind = .space) :
    ∀ c ∈ p.text, isBlank c = true := by
  obtain ⟨cs, -, lexeme, hread, rfl⟩ := h
  cases hread with
  | space => exact List.all_eq_true.mp List.all_takeWhile
  | single hsingle =>
    obtain rfl | rfl | rfl | rfl :=
        Lexeme.single?_isSome_iff.mp (Option.isSome_of_eq_some hsingle) <;>
      obtain rfl := Option.some.inj hsingle <;> contradiction
  | _ => contradiction

/-- A piece stops at the next one, whatever follows that, unless it is a stray bracket: to know it
for one takes a look at all of the text. -/
theorem Leads.stopsAt (h : p.Leads (q.text ++ behind)) (hq : q.Leads behind)
    (hkind : q.kind ≠ .other) (later : List Char) : p.StopsAt (q.text ++ later) := by
  obtain ⟨cs, hcs, lexeme, hread, rfl⟩ := h
  obtain ⟨ds, hds, next, hnext, rfl⟩ := hq
  have hrest : lexeme.cut.rest = ds :=
    hds ▸ List.append_cancel_left (lexeme.cut.taken_append_rest.trans hcs)
  have hne : lexeme.cut.rest ≠ [] := by
    rw [hrest, hds]
    exact List.append_ne_nil_of_left_ne_nil next.taken_ne_nil behind
  cases hread with
  | @space c cs blank =>
    intro d hd
    have hhead : (List.dropWhile isBlank (c :: cs)).head? = some d := by
      rw [show List.dropWhile isBlank (c :: cs) = ds from hrest,
        ← Lexeme.head?_taken_append next later]
      exact hd
    have hplain := List.head?_dropWhile_not isBlank (c :: cs)
    rw [hhead] at hplain
    simpa using hplain
  | @word c cs plain noComment noSign hword =>
    have hstop := (Cut.munches_munch (Lexeme.wordUnit []) 0 (c :: cs)).unit_rest hne
    rw [show (Cut.munch (Lexeme.wordUnit []) 0 (c :: cs)).rest = ds from hrest] at hstop
    exact hnext.endsWord hkind hstop later
  | @atWord cs =>
    have hmunch := Cut.munches_munch (fun _ ↦ Lexeme.atWordUnit) 0 cs
    have hleft := (@Lexeme.atWord_eq '@' _ _ _ hmunch).2.symm.trans hrest
    have hstop := hmunch.unit_rest (hleft ▸ hrest ▸ hne)
    rw [hleft] at hstop
    exact hnext.endsAtWord hstop later
  | @single c cs kind hsingle =>
    rcases Lexeme.single?_isSome_iff.mp (Option.isSome_of_eq_some hsingle) with
        rfl | rfl | rfl | rfl <;>
      exact Option.some.inj hsingle ▸ trivial
  | _ => trivial

end Piece

end Stylesheet
