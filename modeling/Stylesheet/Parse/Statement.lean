import Stylesheet.Node.Basic
import Stylesheet.Node.Important
import Stylesheet.Token.Basic

/-!
# Statements

A statement is the run of tokens that becomes one node, or the front of one. Its fields are cut at
token boundaries, except for the value of a declaration, which is cut by its text; put together
again in order they are the text of the tokens.
-/

namespace Stylesheet

open Text

/-- One token of white space at the end is told apart. -/
def splitTrailingSpace (ts : List Token) : List Token × List Token :=
  match ts.getLast? with
  | some t => if t.kind = .space then (ts.dropLast, [t]) else (ts, [])
  | none => (ts, [])

/-- One token of white space at the front is told apart. -/
def splitLeadingSpace : List Token → List Token × List Token
  | [] => ([], [])
  | t :: ts => if t.kind = .space then ([t], ts) else ([], t :: ts)

/-- At-rules whose block holds declarations. -/
def declarationAtRules : List String :=
  ["page", "font-face", "viewport", "counter-style", "property", "font-palette-values"]

/-- What may stand in front of their names, nothing included. -/
def vendorMarks : List String :=
  ["", "-webkit-", "-moz-", "-ms-", "-o-"]

/-- Case is of no account. An at-rule that is not known holds rules. -/
def bodyKind (name : String) : BodyKind :=
  if vendorMarks.any fun mark ↦ declarationAtRules.any fun known ↦ name.toLower == mark ++ known
  then .declarations
  else .rules

namespace Prelude

def ofTokens (before : String) (atWord : Token) (ts : List Token) : Prelude :=
  let (afterName, ts) := splitLeadingSpace ts
  let (params, between) := splitTrailingSpace ts
  { before
    name := String.ofList (atWord.text.toList.drop 1)
    afterName := keptText afterName
    params := keptText params
    between := keptText between }

end Prelude

namespace Selector

def ofTokens (before : String) (ts : List Token) : Selector :=
  let (selector, between) := splitTrailingSpace ts
  { before
    selector := keptText selector
    between := keptText between }

end Selector

namespace Declaration

/-- The first colon ends the property. There is no declaration without one. -/
def ofTokens? (before : String) (ts : List Token) : Option Declaration :=
  match ts.dropWhile (·.kind ≠ .colon) with
  | [] => none
  | colon :: behind =>
    let (prop, spaceBefore) := splitTrailingSpace (ts.takeWhile (·.kind ≠ .colon))
    let (spaceAfter, written) := splitLeadingSpace behind
    let written := (keptText written).toList
    let value := dropTrailingBlanks written
    let marked := splitImportant? value
    let (value, marker) := marked.getD (value, [])
    some
      { before
        prop := keptText prop
        between := keptText (spaceBefore ++ colon :: spaceAfter)
        value := String.ofList value
        important := marked.isSome
        after := String.ofList (marker ++ trailingBlanks written) }

/-- A property whose value the text no longer reached. -/
def ofProperty (before : String) (ts : List Token) : Declaration where
  before
  prop := keptText ts
  between := ""
  value := ""
  important := false
  after := ""

end Declaration

namespace Comment

/-- The text between the delimiters; an unclosed comment has the opening one only. -/
def content (t : Token) : List Char :=
  let inner := t.text.toList.drop 2
  if t.unclosed then inner else inner.take (inner.length - 2)

/-- A comment of blanks alone has them all on the left. -/
def ofToken (before : String) (t : Token) : Comment :=
  let content := content t
  let text := dropTrailingBlanks (dropLeadingBlanks content)
  { before
    left := String.ofList (leadingBlanks content)
    text := String.ofList text
    right := String.ofList (trailingBlanks (dropLeadingBlanks content)) }

end Comment

structure Statement where
  first : Token
  /-- The tokens behind the first, the latest in front. -/
  more : List Token := []

namespace Statement

def push (s : Statement) (t : Token) : Statement :=
  { s with more := t :: s.more }

def tokens (s : Statement) : List Token :=
  s.first :: s.more.reverse

def isAtRule (s : Statement) : Bool :=
  s.first.kind == .atWord

/-- White space at the end is no part of a statement that ends with its block. -/
def splitSpace (s : Statement) : Statement × List Token :=
  match s.more with
  | t :: more => if t.kind = .space then ({ s with more }, [t]) else (s, [])
  | [] => (s, [])

end Statement

end Stylesheet
