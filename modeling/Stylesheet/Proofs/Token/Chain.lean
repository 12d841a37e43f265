import Stylesheet.Proofs.Token.Pieces

/-!
# Chains of pieces

A text is cut into pieces one by one, each of them the first in front of the rest
(`Piece.Chained`), and its tokens are the pieces at the places where they stand
(`tokenize_eq_placed`). A chain of firm pieces is the same in front of every text that its last
piece stops at (`Piece.Chained.exchange`), so a text that ends with a brace and has no stray
brackets has the same tokens in front of any other text (`tokenize_append`).
-/

namespace Stylesheet

open Text

namespace Piece

variable {p q : Piece} {behind later : List Char}

/-- The text that the pieces make up. -/
def join (ps : List Piece) : List Char :=
  ps.flatMap Piece.text

@[simp]
theorem join_nil : join [] = [] := rfl

@[simp]
theorem join_cons (p : Piece) (ps : List Piece) : join (p :: ps) = p.text ++ join ps := rfl

@[simp]
theorem join_append (ps qs : List Piece) : join (ps ++ qs) = join ps ++ join qs :=
  List.flatMap_append

/-- In front of the text the pieces are read one by one. -/
def Chained : List Piece → List Char → Prop
  | [], _ => True
  | p :: ps, behind => p.Leads (join ps ++ behind) ∧ Chained ps behind

theorem chained_append {ps qs : List Piece} :
    Chained (ps ++ qs) behind ↔ Chained ps (join qs ++ behind) ∧ Chained qs behind := by
  induction ps with
  | nil => simp [Chained]
  | cons p ps ih =>
    rw [List.cons_append, Chained, Chained, ih, join_append, List.append_assoc, and_assoc]

/-- Every text is cut into pieces. -/
theorem exists_chained (cs : List Char) : ∃ ps, join ps = cs ∧ Chained ps [] := by
  cases cs with
  | nil => exact ⟨[], rfl, trivial⟩
  | cons c cs =>
    obtain ⟨lexeme, hread⟩ := Lexeme.exists_reads [] 0 c cs
    obtain ⟨ps, hjoin, hps⟩ := exists_chained lexeme.cut.rest
    have hall : lexeme.cut.taken ++ join ps = c :: cs := by
      rw [hjoin, lexeme.cut.taken_append_rest]
    refine ⟨lexeme.piece :: ps, hall, ⟨c :: cs, ?_, lexeme, hread, rfl⟩, hps⟩
    rw [List.append_nil]
    exact hall.symm
termination_by cs.length
decreasing_by exact lexeme.cut.length_rest_lt lexeme.taken_ne_nil

/-- The piece is the same in front of every text that it stops at. -/
def Firm (p : Piece) : Prop :=
  p.closed = true ∧ p.kind ≠ .other

/-- A chain of firm pieces holds in front of every text that its last piece stops at. -/
theorem Chained.exchange {ps : List Piece} (h : Chained ps behind) (hps : ∀ p ∈ ps, p.Firm)
    (hlast : ∀ p ∈ ps.getLast?, (p.kind = .word ∨ p.kind = .atWord → behind ≠ []) ∧
      p.StopsAt later) : Chained ps later := by
  induction ps with
  | nil => trivial
  | cons p ps ih =>
    obtain ⟨hfirst, hbehind⟩ := h
    obtain ⟨⟨hclosed, hkind⟩, hps⟩ := List.forall_mem_cons.mp hps
    cases ps with
    | nil =>
      obtain ⟨hne, hstops⟩ := hlast p rfl
      exact ⟨hfirst.exchange hclosed hkind hne hstops, trivial⟩
    | cons q ps =>
      have hq : q.Leads (join ps ++ behind) := hbehind.1
      rw [join_cons, List.append_assoc] at hfirst
      have hstops := hfirst.stopsAt hq (hps q List.mem_cons_self).2 (join ps ++ later)
      have hne : p.kind = .word ∨ p.kind = .atWord → q.text ++ (join ps ++ behind) ≠ [] :=
        fun _ ↦ List.append_ne_nil_of_left_ne_nil hq.text_ne_nil _
      refine ⟨?_, ih hbehind hps fun r hr ↦ hlast r (by rwa [List.getLast?_cons_cons])⟩
      rw [join_cons, List.append_assoc]
      exact hfirst.exchange hclosed hkind hne hstops

/-! ## Tokens -/

/-- The pieces as tokens of a text that starts at the offset and the position. -/
def placed (offset : Nat) (position : Position) : List Piece → List Token
  | [] => []
  | p :: ps =>
    { kind := p.kind
      text := String.ofList p.text
      span := ⟨offset, offset + byteLength p.text⟩
      start := position
      stop := position.advance p.text.dropLast
      unclosed := !p.closed } ::
      placed (offset + byteLength p.text) (position.advance p.text) ps

theorem placed_append (offset : Nat) (position : Position) (ps qs : List Piece) :
    placed offset position (ps ++ qs) =
      placed offset position ps ++
        placed (offset + byteLength (join ps)) (position.advance (join ps)) qs := by
  induction ps generalizing offset position with
  | nil => rfl
  | cons p ps ih =>
    rw [List.cons_append, placed, ih, placed, join_cons, byteLength_append,
      Position.advance_append, Nat.add_assoc, List.cons_append]

theorem placed_continued (offset : Nat) (start : Position) (bytes : Nat) (read : List Char)
    (ps : List Piece) :
    placed (offset + bytes) (start.advance read) ps =
      (placed bytes (Position.behind read) ps).map (Token.continued offset start) := by
  induction ps generalizing bytes read with
  | nil => rfl
  | cons p ps ih =>
    have hplace (cs : List Char) : (start.advance read).advance cs =
        start.continued ((Position.behind read).advance cs) := by
      rw [← Position.advance_append, ← Position.advance_eq_behind, ← Position.advance_append,
        Position.advance_eq_behind, Position.advance_eq_continued]
    have hlater : (Position.behind read).advance p.text = Position.behind (read ++ p.text) := by
      rw [← Position.advance_eq_behind, ← Position.advance_append, Position.advance_eq_behind]
    have hbehind := ih (bytes + byteLength p.text) (read ++ p.text)
    rw [← hlater, Position.advance_append] at hbehind
    have hfirst : start.advance read = start.continued (Position.behind read) :=
      Position.advance_eq_continued start read
    rw [placed, Nat.add_assoc, hbehind, placed, List.map_cons, hplace, hfirst]
    rfl

end Piece

open Piece

def Token.piece (t : Token) : Piece :=
  ⟨t.kind, t.text.toList, !t.unclosed⟩

theorem map_piece_placed (offset : Nat) (position : Position) (ps : List Piece) :
    (placed offset position ps).map Token.piece = ps := by
  induction ps generalizing offset position with
  | nil => rfl
  | cons p ps ih => simp [placed, ih, Token.piece]

/-- The tokens in front of a cursor are the pieces that the text in front of it is cut into. -/
theorem Cursor.Sound.tokens_eq_placed {c : Cursor} (h : c.Sound) {ps : List Piece}
    (hrest : c.rest = join ps) (hps : Chained ps []) :
    c.tokens = placed c.offset c.position ps := by
  induction ps generalizing c with
  | nil => exact tokens_of_rest_nil hrest
  | cons p ps ih =>
    obtain ⟨⟨cs, hcs, lexeme, hread, hpiece⟩, hbehind⟩ := hps
    rw [List.append_nil] at hcs
    obtain ⟨rest, offset, position, memory⟩ := c
    obtain rfl : rest = cs := hrest.trans hcs.symm
    have hlexeme : Cursor.lexeme? ⟨rest, offset, position, memory⟩ = some lexeme :=
      (h.ofText?_eq 0).trans hread.ofText?_eq
    have hleft : lexeme.cut.rest = join ps := by
      subst hpiece
      exact List.append_cancel_left (lexeme.cut.taken_append_rest.trans hcs)
    rw [tokens_eq_cons hlexeme, ih h.pass ((pass_rest _ _).trans hleft) hbehind, offset_pass,
      position_pass]
    subst hpiece
    rfl

theorem tokenize_eq_placed {text : String} {ps : List Piece}
    (htext : stripMark text.toList = join ps) (hps : Chained ps []) :
    tokenize text = placed 0 {} ps :=
  (Cursor.sound_ofString text).tokens_eq_placed htext hps

/-- The tokens of a text are chained. -/
theorem chained_tokenize (text : String) :
    Chained ((tokenize text).map Token.piece) [] ∧
      join ((tokenize text).map Token.piece) = stripMark text.toList := by
  obtain ⟨ps, hjoin, hps⟩ := exists_chained (stripMark text.toList)
  rw [tokenize_eq_placed hjoin.symm hps, map_piece_placed]
  exact ⟨hps, hjoin⟩

/-- Behind a text that ends with a brace the tokens are those of the other text, as long as no
bracket of the first one is left open: that could be closed by the other one. -/
theorem tokenize_append {a b : String} (hother : ∀ t ∈ tokenize a, t.kind ≠ .other)
    (hlast : ∃ t ∈ (tokenize a).getLast?, t.kind = .closeCurly)
    (hmark : b.toList.head? ≠ some '\uFEFF') :
    tokenize (a ++ b) = tokenize a ++ (tokenize b).map (Token.continued
      (byteLength (stripMark a.toList)) (Position.behind (stripMark a.toList))) := by
  obtain ⟨ha, hjoina⟩ := chained_tokenize a
  obtain ⟨hb, hjoinb⟩ := chained_tokenize b
  obtain ⟨brace, hbrace, hcurly⟩ := hlast
  have hclosed : ∀ t ∈ tokenize a, t.unclosed = false := by
    intro t ht
    obtain ⟨front, hfront⟩ := List.getLast?_eq_some_iff.mp hbrace
    rw [hfront] at ht
    obtain hmem | hmem := List.mem_append.mp ht
    · exact unclosed_of_mem_dropLast_tokenize a t (by rwa [hfront, List.dropLast_concat])
    · obtain rfl := List.mem_singleton.mp hmem
      have hshaped := shaped_of_mem_tokenize a t (List.mem_of_getLast? hbrace)
      rw [← Bool.not_eq_true]
      intro hopen
      rcases hshaped.unclosed hopen with hkind | hkind <;> simp [hkind] at hcurly
  have hfirm : ∀ p ∈ (tokenize a).map Token.piece, p.Firm := by
    intro p hp
    obtain ⟨t, ht, rfl⟩ := List.mem_map.mp hp
    exact ⟨by rw [Token.piece, hclosed t ht]; rfl, hother t ht⟩
  have hlast : ∀ p ∈ ((tokenize a).map Token.piece).getLast?,
      (p.kind = .word ∨ p.kind = .atWord → ([] : List Char) ≠ []) ∧
        p.StopsAt (stripMark b.toList) := by
    intro p hp
    rw [List.getLast?_map, hbrace] at hp
    obtain rfl := Option.some.inj hp
    have hkind : brace.piece.kind = .closeCurly := hcurly
    exact ⟨by rw [hkind]; simp, by rw [StopsAt, hkind]; trivial⟩
  have hnonempty : stripMark (a ++ b).toList = stripMark a.toList ++ stripMark b.toList := by
    rw [String.toList_append, stripMark_of_head?_ne hmark]
    cases hcs : a.toList with
    | nil =>
      have hnone : tokenize a = [] := Cursor.tokens_of_rest_nil (by rw [Cursor.ofString, hcs]; rfl)
      rw [hnone] at hbrace
      contradiction
    | cons c cs =>
      by_cases hc : c = '\uFEFF'
      · rw [hc]
        rfl
      · rw [stripMark_of_head?_ne (by simpa using hc), stripMark_of_head?_ne (by simpa using hc)]
  have hchain : Chained ((tokenize a).map Token.piece ++ (tokenize b).map Token.piece) [] := by
    rw [chained_append, hjoinb, List.append_nil]
    exact ⟨ha.exchange hfirm hlast, hb⟩
  have hab : tokenize (a ++ b) =
      placed 0 {} ((tokenize a).map Token.piece ++ (tokenize b).map Token.piece) :=
    tokenize_eq_placed (by rw [join_append, hjoina, hjoinb, hnonempty]) hchain
  have hplaceda : placed 0 {} ((tokenize a).map Token.piece) = tokenize a :=
    (tokenize_eq_placed hjoina.symm ha).symm
  have hplacedb : placed 0 {} ((tokenize b).map Token.piece) = tokenize b :=
    (tokenize_eq_placed hjoinb.symm hb).symm
  have hcontinued := placed_continued (byteLength (stripMark a.toList))
    (Position.behind (stripMark a.toList)) 0 [] ((tokenize b).map Token.piece)
  rw [hab, placed_append, hplaceda, hjoina, Position.advance_eq_behind, Nat.zero_add]
  exact congrArg _ (hcontinued.trans (congrArg _ hplacedb))

end Stylesheet
