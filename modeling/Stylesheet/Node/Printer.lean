import Stylesheet.Node.Basic
import Stylesheet.Node.Important

/-!
# Printing

Every node prints its own texts and delimiters. Semicolons belong to the container: one stands
behind each statement, save that the last statement, with nothing but comments behind it, has one
only if the container says so.

Each printer adds to the text printed so far and does not look at it (`addTo_eq`), so the text of a
block is made of the texts of its children, with the semicolons in between.
-/

namespace Stylesheet

open Text

namespace Declaration

/-- What follows the value. If the marker that was written does not fit the flag, one is put in or
the written one left out. -/
def ending (d : Declaration) : String :=
  let marked := (splitImportant? (dropTrailingBlanks d.after.toList)).isSome
  if d.important = marked then d.after
  else if d.important then " !important" ++ d.after
  else String.ofList (trailingBlanks d.after.toList)

def addTo (out : String) (d : Declaration) : String :=
  out ++ d.before ++ d.prop ++ d.between ++ d.value ++ d.ending

end Declaration

def Comment.addTo (out : String) (c : Comment) : String :=
  out ++ c.before ++ "/*" ++ c.left ++ c.text ++ c.right ++ "*/"

def Prelude.addTo (out : String) (p : Prelude) : String :=
  out ++ p.before ++ "@" ++ p.name ++ p.afterName ++ p.params ++ p.between

def Selector.addTo (out : String) (s : Selector) : String :=
  out ++ s.before ++ s.selector ++ s.between

def Leaf.addTo (out : String) : Leaf → String
  | declaration d => d.addTo out
  | comment c => c.addTo out
  | statement p => p.addTo out

def Head.addTo (out : String) : Head → String
  | rule s => s.addTo out
  | atRule p _ => p.addTo out

namespace Node

/-- Whether a semicolon follows the node, given the nodes behind it in its container. -/
def needsSemicolon (semicolon : Bool) (n : Node) (behind : List Node) : Bool :=
  n.isStatement && (semicolon || !behind.all isComment)

mutual

def addTo (out : String) : Node → String
  | leaf _ l => l.addTo out
  | block _ head children after semicolon =>
    (addAll (head.addTo out ++ "\x7b") semicolon children) ++ after ++ "\x7d"

def addAll (out : String) (semicolon : Bool) : List Node → String
  | [] => out
  | n :: behind =>
    let printed := addTo out n
    addAll (if n.needsSemicolon semicolon behind then printed ++ ";" else printed) semicolon behind

end

def text (n : Node) : String :=
  addTo "" n

def textAll (semicolon : Bool) (ns : List Node) : String :=
  addAll "" semicolon ns

end Node

def Tree.text (t : Tree) : String :=
  Node.addAll "" t.semicolon t.rules ++ t.after

theorem Leaf.addTo_eq (out : String) (l : Leaf) : l.addTo out = out ++ l.addTo "" := by
  cases l <;>
    simp [Leaf.addTo, Declaration.addTo, Comment.addTo, Prelude.addTo, String.append_assoc]

theorem Head.addTo_eq (out : String) (h : Head) : h.addTo out = out ++ h.addTo "" := by
  cases h <;> simp [Head.addTo, Prelude.addTo, Selector.addTo, String.append_assoc]

namespace Node

mutual

theorem addTo_eq (out : String) (n : Node) : n.addTo out = out ++ n.text := by
  cases n with
  | leaf source l =>
    rw [text, addTo, addTo]
    exact Leaf.addTo_eq out l
  | block source head children after semicolon =>
    have hout := addAll_eq (head.addTo out ++ "\x7b") semicolon children
    have hempty := addAll_eq (head.addTo "" ++ "\x7b") semicolon children
    rw [text, addTo, addTo, hout, hempty, Head.addTo_eq out head]
    simp [String.append_assoc]

theorem addAll_eq (out : String) (semicolon : Bool) (ns : List Node) :
    addAll out semicolon ns = out ++ textAll semicolon ns := by
  cases ns with
  | nil => simp [textAll, addAll]
  | cons n behind =>
    have hstep (out : String) : addAll out semicolon (n :: behind) =
        (if n.needsSemicolon semicolon behind then addTo out n ++ ";" else addTo out n) ++
          textAll semicolon behind := by
      rw [addAll]
      exact addAll_eq _ semicolon behind
    rw [textAll, hstep, hstep, addTo_eq out n, addTo_eq "" n]
    split <;> simp [String.append_assoc]

end

@[simp]
theorem text_leaf (source : Source) (l : Leaf) : (leaf source l).text = l.addTo "" := by
  rw [text, addTo]

@[simp]
theorem text_block (source : Source) (head : Head) (children : List Node) (after : String)
    (semicolon : Bool) :
    (block source head children after semicolon).text =
      head.addTo "" ++ "\x7b" ++ textAll semicolon children ++ after ++ "\x7d" := by
  rw [text, addTo, addAll_eq]

@[simp]
theorem textAll_nil (semicolon : Bool) : textAll semicolon [] = "" := by
  rw [textAll, addAll]

@[simp]
theorem textAll_cons (semicolon : Bool) (n : Node) (behind : List Node) :
    textAll semicolon (n :: behind) =
      n.text ++ (if n.needsSemicolon semicolon behind then ";" else "") ++
        textAll semicolon behind := by
  rw [textAll, addAll, addAll_eq, ← text]
  split <;> simp

end Node

theorem Tree.text_eq (t : Tree) : t.text = Node.textAll t.semicolon t.rules ++ t.after := rfl

end Stylesheet
