/-!
# Blanks

White space is five characters: space, tab, line feed, carriage return and form feed. A text
splits at either end into its blanks and the rest, and nothing is lost by it.
-/

namespace Stylesheet.Text

def isBlank (c : Char) : Bool :=
  c == ' ' || c == '\t' || c == '\n' || c == '\r' || c == '\x0c'

def leadingBlanks (cs : List Char) : List Char :=
  cs.takeWhile isBlank

def dropLeadingBlanks (cs : List Char) : List Char :=
  cs.dropWhile isBlank

def trailingBlanks (cs : List Char) : List Char :=
  (leadingBlanks cs.reverse).reverse

def dropTrailingBlanks (cs : List Char) : List Char :=
  (dropLeadingBlanks cs.reverse).reverse

@[simp]
theorem leadingBlanks_append_drop (cs : List Char) :
    leadingBlanks cs ++ dropLeadingBlanks cs = cs :=
  List.takeWhile_append_dropWhile

@[simp]
theorem drop_append_trailingBlanks (cs : List Char) :
    dropTrailingBlanks cs ++ trailingBlanks cs = cs := by
  simp [dropTrailingBlanks, trailingBlanks, ← List.reverse_append]

end Stylesheet.Text
