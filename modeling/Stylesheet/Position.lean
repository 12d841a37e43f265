/-!
# Positions and spans

A position names a character by line and column, a span a stretch of text by its byte offsets.
Positions are carried through a text character by character, so the position reached after
`xs ++ ys` is the one reached from `xs` by going on through `ys` (`advance_append`).
-/

namespace Stylesheet

/-- Lines and columns start at one. A line ends with a line feed; columns count characters. -/
structure Position where
  line : Nat := 1
  column : Nat := 1
  deriving DecidableEq, Repr

namespace Position

def after (p : Position) (c : Char) : Position :=
  if c = '\n' then { line := p.line + 1 } else { p with column := p.column + 1 }

/-- The position of the character that follows the text. -/
def advance (p : Position) (cs : List Char) : Position :=
  cs.foldl after p

@[simp]
theorem advance_nil (p : Position) : p.advance [] = p := rfl

@[simp]
theorem advance_cons (p : Position) (c : Char) (cs : List Char) :
    p.advance (c :: cs) = (p.after c).advance cs := rfl

theorem advance_append (p : Position) (xs ys : List Char) :
    p.advance (xs ++ ys) = (p.advance xs).advance ys :=
  List.foldl_append

/-- The line decides, then the column. -/
instance : Ord Position where
  compare p q := (compare p.line q.line).then (compare p.column q.column)

end Position

/-- The bytes from `start` up to, but not including, `stop`. -/
structure Span where
  start : Nat
  stop : Nat
  deriving DecidableEq, Repr

/-- The first byte decides, then the end. -/
instance : Ord Span where
  compare a b := (compare a.start b.start).then (compare a.stop b.stop)

end Stylesheet
