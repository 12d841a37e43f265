import Stylesheet.Proofs.Position
import Stylesheet.Proofs.Text.Bytes
import Stylesheet.Token.Cursor

/-!
# Calls of a cursor

A cursor can be moved in six ways, in any order. Wherever the calls lead, the text in front of the
cursor and the text passed make up the whole, and the offset and the position are those behind the
text passed (`Cursor.exists_stands`).
-/

namespace Stylesheet

open Text

namespace Cursor

inductive Call where
  | step
  | space
  | atWord
  | quoted (quote : Char)
  | comment
  | word
  deriving DecidableEq, Repr

/-- What the call tells, if it tells anything, and the cursor behind it. -/
def call (c : Cursor) : Call → Option Bool × Cursor
  | .step => (none, c.step)
  | .space => (none, c.skipSpace)
  | .atWord => (none, c.skipAtWord)
  | .quoted quote => (some (c.skipQuoted quote).1, (c.skipQuoted quote).2)
  | .comment => (some c.skipComment.1, c.skipComment.2)
  | .word => (some c.skipWord.1, c.skipWord.2)

def after (c : Cursor) (call : Call) : Cursor :=
  (c.call call).2

/-- The cursor stands behind `front` in the text. -/
structure Stands (c : Cursor) (cs front : List Char) : Prop where
  text : front ++ c.rest = cs
  offset : c.offset = byteLength front
  position : c.position = Position.behind front

variable {c : Cursor} {cs front : List Char}

theorem Stands.move (h : c.Stands cs front) (cut : Cut c.rest) :
    (c.move cut).Stands cs (front ++ cut.taken) where
  text := by rw [← h.text, List.append_assoc]; exact congrArg _ cut.taken_append_rest
  offset := by rw [byteLength_append, ← h.offset]; rfl
  position := by
    rw [← Position.advance_eq_behind, Position.advance_append, Position.advance_eq_behind,
      ← h.position]
    rfl

theorem Stands.learn (h : c.Stands cs front) : c.learn.Stands cs front :=
  ⟨h.text, h.offset, h.position⟩

/-- Every call moves the cursor over a stretch of the text. -/
theorem Stands.exists_after (h : c.Stands cs front) (call : Call) :
    ∃ taken, (c.after call).Stands cs (front ++ taken) := by
  cases call with
  | step => exact ⟨_, h.move _⟩
  | space => exact ⟨_, h.move _⟩
  | atWord => exact ⟨_, h.move _⟩
  | quoted quote => exact ⟨_, h.move _⟩
  | comment => exact ⟨_, h.move _⟩
  | word => exact ⟨_, (h.move _).learn⟩

theorem Stands.exists_foldl_after (h : c.Stands cs front) (calls : List Call) :
    ∃ taken, (calls.foldl after c).Stands cs (front ++ taken) := by
  induction calls generalizing c front with
  | nil => exact ⟨[], by rwa [List.append_nil]⟩
  | cons call calls ih =>
    obtain ⟨first, hfirst⟩ := h.exists_after call
    obtain ⟨later, hlater⟩ := ih hfirst
    exact ⟨first ++ later, by rwa [← List.append_assoc]⟩

theorem exists_stands (text : String) (calls : List Call) :
    ∃ front, (calls.foldl after (ofString text)).Stands (stripMark text.toList) front := by
  have hstart : (ofString text).Stands (stripMark text.toList) [] := ⟨rfl, rfl, rfl⟩
  obtain ⟨taken, h⟩ := hstart.exists_foldl_after calls
  exact ⟨taken, h⟩

/-- The offset alone says where in the text the cursor stands. -/
theorem Stands.eq_of_offset {d : Cursor} {back : List Char} (h : c.Stands cs front)
    (hd : d.Stands cs back) (hoffset : c.offset = d.offset) :
    c.rest = d.rest ∧ c.position = d.position := by
  have hlength : byteLength front = byteLength back := by
    rw [← h.offset, hoffset, hd.offset]
  obtain ⟨hfront, hrest⟩ := append_inj_of_byteLength (h.text.trans hd.text.symm) hlength
  exact ⟨hrest, by rw [h.position, hd.position, hfront]⟩

end Cursor

end Stylesheet
