import Stylesheet.Proofs.Position
import Stylesheet.Proofs.Text.Bytes
import Stylesheet.Proofs.Token.Shape

/-!
# Tokens tile the text

The tokens of a text cover it from the first character to the last. Each starts where the one in
front of it ends, none is empty, and its text is the slice between its bytes (`tokenize_tiles`).
Where a token stands is a matter of the text in front of it alone: its bytes are counted from
there, and so are its lines and columns (`Token.Follows`).
-/

namespace Stylesheet

open Text

/-- The text that the tokens make up. -/
def textOf (ts : List Token) : List Char :=
  (String.join (ts.map Token.text)).toList

@[simp]
theorem textOf_nil : textOf [] = [] := rfl

@[simp]
theorem textOf_cons (t : Token) (ts : List Token) :
    textOf (t :: ts) = t.text.toList ++ textOf ts := by
  simp [textOf]

@[simp]
theorem textOf_append (ts us : List Token) : textOf (ts ++ us) = textOf ts ++ textOf us := by
  simp [textOf]

theorem keptText_of_kept {ts : List Token} (h : ∀ t ∈ ts, t.kept = t.text) :
    keptText ts = String.ofList (textOf ts) := by
  rw [keptText, List.map_congr_left h, textOf, String.ofList_toList]

/-- The token stands right behind `read`, a text that starts at the offset and the position. -/
structure Token.Follows (t : Token) (offset : Nat) (position : Position) (read : List Char) :
    Prop where
  first : t.span.start = offset + byteLength read
  past : t.span.stop = t.span.start + byteLength t.text.toList
  start : t.start = position.advance read
  stop : t.stop = t.start.advance t.text.toList.dropLast

namespace Cursor

variable {c : Cursor} {lexeme : Lexeme c.rest}

theorem offset_pass (c : Cursor) (lexeme : Lexeme c.rest) :
    (c.pass lexeme).offset = c.offset + byteLength lexeme.cut.taken := by
  unfold pass
  split <;> rfl

theorem position_pass (c : Cursor) (lexeme : Lexeme c.rest) :
    (c.pass lexeme).position = c.position.advance lexeme.cut.taken := by
  unfold pass
  split <;> rfl

theorem follows_token (c : Cursor) (lexeme : Lexeme c.rest) :
    (c.token lexeme).Follows c.offset c.position [] where
  first := rfl
  past := by simp [token]
  start := rfl
  stop := by simp [token]

/-- A token has text and stands behind the texts of the tokens in front of it. -/
theorem follows_tokens (c : Cursor) : ∀ front t behind, c.tokens = front ++ t :: behind →
    t.text ≠ "" ∧ t.Follows c.offset c.position (textOf front) := by
  apply tokens_induction (motive := fun c ts ↦
    ∀ (front : List Token) (t : Token) (behind : List Token), ts = front ++ t :: behind →
      t.text ≠ "" ∧ t.Follows c.offset c.position (textOf front)) _ _ c
  · intro c _ front t behind hnil
    simp at hnil
  · intro c lexeme _ ih front t behind hts
    cases front with
    | nil =>
      obtain ⟨rfl, -⟩ := List.cons.inj hts
      refine ⟨?_, c.follows_token lexeme⟩
      simpa [token] using lexeme.taken_ne_nil
    | cons u front =>
      obtain ⟨rfl, hbehind⟩ := List.cons.inj hts
      obtain ⟨hne, h⟩ := ih front t behind hbehind
      have htext : (c.token lexeme).text.toList = lexeme.cut.taken := String.toList_ofList
      refine ⟨hne, ?_, h.past, ?_, h.stop⟩
      · rw [h.first, offset_pass, textOf_cons, byteLength_append, htext, Nat.add_assoc]
      · rw [h.start, position_pass, textOf_cons, Position.advance_append, htext]

/-- Tokens start one behind the other. -/
theorem pairwise_tokens (c : Cursor) :
    c.tokens.Pairwise fun t u ↦ compare t.start u.start = .lt := by
  apply tokens_induction (motive := fun _ ts ↦
    ts.Pairwise fun t u ↦ compare t.start u.start = .lt) _ _ c
  · intro c _
    exact List.Pairwise.nil
  · intro c lexeme _ ih
    refine List.pairwise_cons.mpr ⟨fun u hu ↦ ?_, ih⟩
    obtain ⟨front, behind, hts⟩ := List.append_of_mem hu
    have hfollow := ((c.pass lexeme).follows_tokens front u behind hts).2
    have hne : lexeme.cut.taken ++ textOf front ≠ [] :=
      List.append_ne_nil_of_left_ne_nil lexeme.taken_ne_nil _
    rw [hfollow.start, position_pass, ← Position.advance_append]
    exact Position.compare_advance c.position hne

end Cursor

theorem toList_textOf_tokenize (text : String) :
    String.ofList (textOf (tokenize text)) = withoutMark text := by
  rw [textOf, String.ofList_toList, join_tokenize]

section

variable {text : String} {front behind : List Token} {t : Token}

theorem follows_tokenize (hts : tokenize text = front ++ t :: behind) :
    t.Follows 0 {} (textOf front) :=
  ((Cursor.ofString text).follows_tokens front t behind hts).2

theorem text_ne_empty_of_mem_tokenize (ht : t ∈ tokenize text) : t.text ≠ "" := by
  obtain ⟨front, behind, hts⟩ := List.append_of_mem ht
  exact ((Cursor.ofString text).follows_tokens front t behind hts).1

/-- Only the last token can be unclosed. -/
theorem eq_nil_of_unclosed (hts : tokenize text = front ++ t :: behind) (h : t.unclosed = true) :
    behind = [] := by
  cases behind with
  | nil => rfl
  | cons u behind =>
    have hfront : t ∈ (tokenize text).dropLast := by simp [hts]
    have hclosed := unclosed_of_mem_dropLast_tokenize text t hfront
    exact absurd (hclosed.symm.trans h) Bool.false_ne_true

end

/-- What is certain about the tokens of a text. Columns count characters, spans count bytes. -/
structure Tiles (text : String) (ts : List Token) : Prop where
  ne_empty : ∀ t ∈ ts, t.text ≠ ""
  first : ∀ t, ts.head? = some t → t.span.start = 0
  next : ∀ front t u behind, ts = front ++ t :: u :: behind → u.span.start = t.span.stop
  last : ∀ t, ts.getLast? = some t → t.span.stop = text.utf8ByteSize
  slice : ∀ t ∈ ts, slice? text.toList t.span.start t.span.stop = some t.text.toList
  join : String.join (ts.map Token.text) = text
  start : ∀ front t behind, ts = front ++ t :: behind →
    t.start = Position.behind (String.join (front.map Token.text)).toList
  stop : ∀ front t behind, ts = front ++ t :: behind →
    t.stop = Position.behind
      ((String.join (front.map Token.text)).toList ++ t.text.toList.dropLast)
  unclosed : ∀ front t behind, ts = front ++ t :: behind → t.unclosed = true →
    (t.kind = .string ∨ t.kind = .comment) ∧ behind = []

/-- The tokens of a text tile it. A byte order mark in front is no part of the text. -/
theorem tokenize_tiles (text : String) : Tiles (withoutMark text) (tokenize text) := by
  have htext := toList_textOf_tokenize text
  refine ⟨?_, ?_, ?_, ?_, ?_, join_tokenize text, ?_, ?_, ?_⟩
  · exact fun t ↦ text_ne_empty_of_mem_tokenize
  · intro t ht
    obtain ⟨behind, hts⟩ := List.head?_eq_some_iff.mp ht
    exact (@follows_tokenize text [] behind t hts).first
  · intro front t u behind hts
    have ht := follows_tokenize hts
    rw [List.append_cons] at hts
    have hu := follows_tokenize hts
    rw [hu.first, ht.past, ht.first]
    simp
  · intro t ht
    obtain ⟨front, hts⟩ := List.getLast?_eq_some_iff.mp ht
    have hfollow := follows_tokenize hts
    rw [← htext, utf8ByteSize_ofList, hfollow.past, hfollow.first, hts]
    simp
  · intro t ht
    obtain ⟨front, behind, hts⟩ := List.append_of_mem ht
    have hfollow := follows_tokenize hts
    rw [← htext, String.toList_ofList, hfollow.past, hfollow.first, hts, Nat.zero_add]
    simpa using slice?_append (textOf front) t.text.toList (textOf behind)
  · intro front t behind hts
    rw [(follows_tokenize hts).start, Position.advance_eq_behind]
    rfl
  · intro front t behind hts
    have hfollow := follows_tokenize hts
    rw [hfollow.stop, hfollow.start, ← Position.advance_append, Position.advance_eq_behind]
    rfl
  · intro front t behind hts hopen
    have hmem : t ∈ tokenize text := by simp [hts]
    exact ⟨(shaped_of_mem_tokenize text t hmem).unclosed hopen, eq_nil_of_unclosed hts hopen⟩

end Stylesheet
