import Stylesheet.Token.Cursor

/-!
# From text to tokens

Every token takes at least one character, so the whole text becomes tokens. Where the cursor came
from plays no part: the tokens depend on the text in front of it, and their bytes and positions go
on from those of the cursor.
-/

namespace Stylesheet

open Text

namespace Cursor

def lexeme? (c : Cursor) : Option (Lexeme c.rest) :=
  Lexeme.ofText? c.unmatched c.offset c.rest

def token (c : Cursor) (lexeme : Lexeme c.rest) : Token where
  kind := lexeme.kind
  text := String.ofList lexeme.cut.taken
  span := ⟨c.offset, c.offset + byteLength lexeme.cut.taken⟩
  start := c.position
  stop := c.position.advance lexeme.cut.taken.dropLast
  unclosed := !lexeme.cut.closed

/-- Where a word ended, and where there was none, a bracket may stand that is worth remembering. -/
def pass (c : Cursor) (lexeme : Lexeme c.rest) : Cursor :=
  match lexeme.kind with
  | .word => (c.move lexeme.cut).learn
  | .other => c.learn.move lexeme.cut
  | _ => c.move lexeme.cut

@[simp]
theorem pass_rest (c : Cursor) (lexeme : Lexeme c.rest) :
    (c.pass lexeme).rest = lexeme.cut.rest := by
  unfold pass
  split <;> rfl

def tokensAfter (found : Array Token) (c : Cursor) : Array Token :=
  match c.lexeme? with
  | none => found
  | some lexeme => tokensAfter (found.push (c.token lexeme)) (c.pass lexeme)
termination_by c.rest.length
decreasing_by
  rw [pass_rest]
  exact lexeme.cut.length_rest_lt lexeme.taken_ne_nil

def tokens (c : Cursor) : List Token :=
  (tokensAfter #[] c).toList

theorem toList_tokensAfter (found : Array Token) (c : Cursor) :
    (tokensAfter found c).toList = found.toList ++ c.tokens := by
  rw [tokens, tokensAfter, tokensAfter]
  cases c.lexeme? with
  | none => simp
  | some lexeme =>
    have hfound := toList_tokensAfter (found.push (c.token lexeme)) (c.pass lexeme)
    have hempty := toList_tokensAfter (#[].push (c.token lexeme)) (c.pass lexeme)
    rw [hfound, hempty]
    simp
termination_by c.rest.length
decreasing_by
  all_goals
    rw [pass_rest]
    exact lexeme.cut.length_rest_lt lexeme.taken_ne_nil

theorem tokens_eq_nil {c : Cursor} (h : c.lexeme? = none) : c.tokens = [] := by
  rw [tokens, tokensAfter, h]

theorem tokens_eq_cons {c : Cursor} {lexeme : Lexeme c.rest} (h : c.lexeme? = some lexeme) :
    c.tokens = c.token lexeme :: (c.pass lexeme).tokens := by
  rw [tokens, tokensAfter, h]
  exact toList_tokensAfter _ _

end Cursor

def tokenize (text : String) : List Token :=
  (Cursor.ofString text).tokens

end Stylesheet
