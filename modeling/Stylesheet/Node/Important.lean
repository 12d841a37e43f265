import Stylesheet.Text.Blank

/-!
# The marker of important values

A value is important if it ends with an exclamation mark and the word `important`, in any case and
with blanks between the two if need be. The blanks in front of the exclamation mark belong to the
marker.
-/

namespace Stylesheet

open Text

def isImportant (keyword : List Char) : Bool :=
  keyword.map Char.toLower == "important".toList

/-- The value and its marker, if the last exclamation mark starts one. -/
def splitImportant? (cs : List Char) : Option (List Char × List Char) :=
  let keyword := (cs.reverse.takeWhile (· != '!')).reverse
  match cs.reverse.dropWhile (· != '!') with
  | [] => none
  | mark :: front =>
    if isImportant (dropLeadingBlanks keyword) then
      some (dropTrailingBlanks front.reverse, trailingBlanks front.reverse ++ mark :: keyword)
    else none

end Stylesheet
