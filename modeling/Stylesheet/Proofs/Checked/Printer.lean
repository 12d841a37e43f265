import Stylesheet.Proofs.Arena.Edited
import Stylesheet.Proofs.Checked.Parse
import Stylesheet.Proofs.Node.Siblings
import Stylesheet.Proofs.Parse.Recorded

/-!
# Printing misses nothing

The printer looks up every node by its number. Whether a semicolon follows depends on the index of
the last node that is no comment. If a marker has to be left out, what stands behind it is cut from
the text in which the declaration keeps it.

Whatever an arena says, if it has a tree then the printer runs to its end and prints the text of the
tree (`text_eq`). A parsed tree whose fields have been edited is such an arena, so neither reading
nor printing misses anything (`missesNothing`).
-/

namespace Stylesheet.Checked

open Text

/-! ## The printer -/

def declarationEnding (d : Declaration) : Run String := do
  let marker := dropTrailingBlanks d.after.toList
  let marked ← splitMarker marker
  if d.important = marked.isSome then return d.after
  else if d.important then return " !important" ++ d.after
  else
    let blanks ← sliceFrom d.after.toList (byteLength marker)
    return String.ofList blanks

def leafText : Leaf → Run String
  | .declaration d => do
    let ending ← declarationEnding d
    return d.before ++ d.prop ++ d.between ++ d.value ++ ending
  | .comment c => return c.addTo ""
  | .statement p => return p.addTo ""

/-- The index of the last node that is no comment. -/
def lastPlain (a : Arena) : List NodeId → Run (Option Nat)
  | [] => return none
  | id :: ids => do
    match ← lastPlain a ids with
    | some index => return some (index + 1)
    | none => do
      let entry ← reach (a.entry? id)
      return if entry.content.isComment then none else some 0

/-- The texts of siblings, the first of which has the index. -/
def siblingsText (a : Arena) (print : NodeId → Run String) (semicolon : Bool) (last : Option Nat) :
    (index : Nat) → List NodeId → Run String
  | _, [] => return ""
  | index, id :: ids => do
    let printed ← print id
    let entry ← reach (a.entry? id)
    let marked := entry.content.isStatement && (some index != last || semicolon)
    let behind ← siblingsText a print semicolon last (index + 1) ids
    return printed ++ (if marked then ";" else "") ++ behind

def bodyText (a : Arena) (print : NodeId → Run String) (ids : List NodeId) (semicolon : Bool) :
    Run String := do
  let last ← lastPlain a ids
  siblingsText a print semicolon last 0 ids

def nodeText (a : Arena) : (depth : Nat) → NodeId → Run String
  | 0, _ => .error .missing
  | depth + 1, id => do
    let entry ← reach (a.entry? id)
    match entry.content with
    | .leaf l => leafText l
    | .block head children after semicolon =>
      let inner ← bodyText a (nodeText a depth) children semicolon
      return head.addTo "" ++ "\x7b" ++ inner ++ after ++ "\x7d"

def text (a : Arena) : Run String := do
  let rules ← bodyText a (nodeText a a.size) a.rules a.semicolon
  return rules ++ a.after

/-! ## Leaves -/

/-- The marker ends on the boundary of a character, whatever the text is. -/
theorem declarationEnding_eq (d : Declaration) : declarationEnding d = .ok d.ending := by
  have hblanks : sliceFrom d.after.toList (byteLength (dropTrailingBlanks d.after.toList)) =
      .ok (trailingBlanks d.after.toList) := by
    have hslice :=
      sliceFrom_append (dropTrailingBlanks d.after.toList) (trailingBlanks d.after.toList)
    rwa [drop_append_trailingBlanks] at hslice
  unfold declarationEnding Declaration.ending
  dsimp only
  rw [splitMarker_eq, ok_bind, hblanks]
  split
  · rfl
  · split <;> rfl

theorem leafText_eq (l : Leaf) : leafText l = .ok (l.addTo "") := by
  cases l with
  | declaration d =>
    rw [leafText, declarationEnding_eq]
    simp [Leaf.addTo, Declaration.addTo]
  | comment c => rfl
  | statement p => rfl

/-! ## Siblings -/

/-- The index of the last of the nodes that is no comment. -/
def lastPlain? : List Node → Option Nat
  | [] => none
  | n :: ns =>
    match lastPlain? ns with
    | some index => some (index + 1)
    | none => if n.isComment then none else some 0

theorem lastPlain?_eq_none_iff (ns : List Node) :
    lastPlain? ns = none ↔ ns.all Node.isComment = true := by
  induction ns with
  | nil => simp [lastPlain?]
  | cons n ns ih =>
    rw [lastPlain?, List.all_cons, Bool.and_eq_true, ← ih]
    cases lastPlain? ns <;> simp

theorem lastPlain?_cons_eq_succ (n : Node) (ns : List Node) (index : Nat) :
    lastPlain? (n :: ns) = some (index + 1) ↔ lastPlain? ns = some index := by
  rw [lastPlain?]
  cases lastPlain? ns with
  | some later => simp
  | none =>
    dsimp only
    split <;> simp

theorem lastPlain?_cons_eq_zero {n : Node} (hplain : n.isComment = false) (ns : List Node) :
    lastPlain? (n :: ns) = some 0 ↔ ns.all Node.isComment = true := by
  rw [← lastPlain?_eq_none_iff, lastPlain?]
  cases lastPlain? ns <;> simp [hplain]

/-- What an arena says of a node that it expands, given the depth of the children. -/
inductive Expands (a : Arena) (depth : Nat) (id : NodeId) : Node → Prop where
  | leaf {parent : Container} {source : Source} {l : Leaf}
      (hentry : a.entry? id = some ⟨parent, source, .leaf l⟩) : Expands a depth id (.leaf source l)
  | block {parent : Container} {source : Source} {head : Head} {ids : List NodeId}
      {children : List Node} {after : String} {semicolon : Bool}
      (hentry : a.entry? id = some ⟨parent, source, .block head ids after semicolon⟩)
      (hchildren : ids.mapM (a.expand? depth) = some children) :
      Expands a depth id (.block source head children after semicolon)

section

variable {a : Arena} {depth : Nat} {id : NodeId} {ids : List NodeId} {n : Node} {ns : List Node}

theorem expands_of_expand? (h : a.expand? (depth + 1) id = some n) : Expands a depth id n := by
  simp only [Arena.expand?, Option.bind_eq_bind, Option.bind_eq_some_iff] at h
  obtain ⟨⟨parent, source, content⟩, hentry, hn⟩ := h
  cases content with
  | leaf l =>
    obtain rfl := Option.some.inj hn
    exact .leaf hentry
  | block head children after semicolon =>
    simp only [Option.bind_eq_some_iff] at hn
    obtain ⟨ns, hns, hn⟩ := hn
    obtain rfl := Option.some.inj hn
    exact .block hentry hns

theorem exists_of_mapM_cons (h : (id :: ids).mapM (a.expand? depth) = some ns) :
    ∃ n behind, ns = n :: behind ∧ a.expand? depth id = some n ∧
      ids.mapM (a.expand? depth) = some behind := by
  simp only [List.mapM_cons, Option.bind_eq_bind, Option.bind_eq_some_iff] at h
  obtain ⟨n, hn, behind, hbehind, h⟩ := h
  exact ⟨n, behind, (Option.some.inj h).symm, hn, hbehind⟩

theorem exists_entry_of_expand? (h : a.expand? depth id = some n) :
    ∃ entry, a.entry? id = some entry ∧ entry.content.isComment = n.isComment ∧
      entry.content.isStatement = n.isStatement := by
  cases depth with
  | zero => contradiction
  | succ depth =>
    cases expands_of_expand? h with
    | leaf hentry => exact ⟨_, hentry, rfl, rfl⟩
    | block hentry _ => exact ⟨_, hentry, rfl, rfl⟩

theorem lastPlain_eq (h : ids.mapM (a.expand? depth) = some ns) :
    lastPlain a ids = .ok (lastPlain? ns) := by
  induction ids generalizing ns with
  | nil =>
    obtain rfl : [] = ns := Option.some.inj h
    rfl
  | cons id ids ih =>
    obtain ⟨n, behind, rfl, hn, hbehind⟩ := exists_of_mapM_cons h
    obtain ⟨entry, hentry, hcomment, -⟩ := exists_entry_of_expand? hn
    rw [lastPlain, ih hbehind, ok_bind, lastPlain?]
    cases lastPlain? behind with
    | some index => rfl
    | none =>
      dsimp only
      rw [hentry, reach_some, ok_bind, hcomment]
      rfl

/-- The siblings from an index on. A node is the last that is no comment if only comments are behind
it. -/
theorem siblingsText_eq {print : NodeId → Run String}
    (hprint : ∀ id n, a.expand? depth id = some n → print id = .ok n.text)
    (h : ids.mapM (a.expand? depth) = some ns) (semicolon : Bool) {last : Option Nat} {index : Nat}
    (hlast : ∀ i, last = some (index + i) ↔ lastPlain? ns = some i) :
    siblingsText a print semicolon last index ids = .ok (Node.textAll semicolon ns) := by
  induction ids generalizing ns index with
  | nil =>
    obtain rfl : [] = ns := Option.some.inj h
    rw [Node.textAll_nil]
    rfl
  | cons id ids ih =>
    obtain ⟨n, behind, rfl, hn, hbehind⟩ := exists_of_mapM_cons h
    obtain ⟨entry, hentry, -, hstatement⟩ := exists_entry_of_expand? hn
    have hlater := ih hbehind fun i ↦ by
      rw [Nat.add_assoc, Nat.add_comm 1 i, hlast, lastPlain?_cons_eq_succ]
    have hmark : (entry.content.isStatement && (some index != last || semicolon)) =
        n.needsSemicolon semicolon behind := by
      rw [hstatement, Node.needsSemicolon]
      cases hcomment : n.isComment with
      | true => rw [Node.isStatement_of_isComment hcomment, Bool.false_and, Bool.false_and]
      | false =>
        have hfirst := hlast 0
        rw [lastPlain?_cons_eq_zero hcomment, Nat.add_zero] at hfirst
        have hnot : (some index != last) = !behind.all Node.isComment := by
          rw [Bool.eq_iff_iff, bne_iff_ne, Bool.not_eq_true', ← Bool.not_eq_true, ← hfirst, ne_comm]
        rw [hnot, Bool.or_comm]
    rw [siblingsText, hprint id n hn, ok_bind, hentry, reach_some, ok_bind]
    dsimp only
    rw [hlater, ok_bind, hmark, Node.textAll_cons]
    rfl

theorem bodyText_eq {print : NodeId → Run String}
    (hprint : ∀ id n, a.expand? depth id = some n → print id = .ok n.text)
    (h : ids.mapM (a.expand? depth) = some ns) (semicolon : Bool) :
    bodyText a print ids semicolon = .ok (Node.textAll semicolon ns) := by
  rw [bodyText, lastPlain_eq h, ok_bind]
  exact siblingsText_eq hprint h semicolon fun i ↦ by rw [Nat.zero_add]

/-! ## Nodes and trees -/

theorem nodeText_eq (h : a.expand? depth id = some n) : nodeText a depth id = .ok n.text := by
  induction depth generalizing id n with
  | zero => contradiction
  | succ depth ih =>
    rw [nodeText]
    cases expands_of_expand? h with
    | leaf hentry =>
      rw [hentry, reach_some, ok_bind, Node.text_leaf]
      exact leafText_eq _
    | block hentry hchildren =>
      rw [hentry, reach_some, ok_bind]
      dsimp only
      rw [bodyText_eq (fun _ _ ↦ ih) hchildren, ok_bind, Node.text_block]
      rfl

theorem text_eq {t : Tree} (h : a.tree? = some t) : text a = .ok t.text := by
  simp only [Arena.tree?, Option.bind_eq_bind, Option.bind_eq_some_iff] at h
  obtain ⟨rules, hrules, h⟩ := h
  obtain rfl := Option.some.inj h
  rw [text, bodyText_eq (fun _ _ ↦ nodeText_eq) hrules, ok_bind]
  rfl

end

/-! ## Reading, editing, printing -/

/-- The arena has a tree, and the printer gets to the end of it, and to the end of each node. -/
structure Prints (a : Arena) : Prop where
  tree : ∃ t, a.tree? = some t ∧ text a = .ok t.text
  nodes : ∀ id < a.size, ∃ n, a.node? id = some n ∧ nodeText a a.size id = .ok n.text

/-- Whatever is looked up or cut is there: of the text while it is read in a mode, of the tree while
it is printed, and of the tree with other texts, flags and places in its fields. -/
structure MissesNothing (options : Options) (text : String) : Prop where
  tokens : ∀ t ∈ tokenize text,
    slice (stripMark text.toList) t.span.start t.span.stop = .ok t.text.toList
  parsed : read? options text =
    some ((read options text).events, (read options text).result.map Arena.ofTree)
  /-- No node has a number that is greater than an offset in the text can be. -/
  numbers : ∀ tree, parse options text = .ok tree → tree.size ≤ text.utf8ByteSize
  edited : ∀ tree, parse options text = .ok tree →
    ∀ a, Relation.ReflTransGen Arena.FieldEdit (Arena.ofTree tree) a → Prints a
  /-- This holds of lists that have been changed too. -/
  printed : ∀ a t, a.tree? = some t → Checked.text a = .ok t.text

theorem prints_of_acyclic {a : Arena} (h : a.Acyclic) : Prints a where
  tree := h.exists_tree?.imp fun _ ht ↦ ⟨ht, text_eq ht⟩
  nodes id hid := by
    obtain ⟨n, hn⟩ := h.exists_expand? hid (h.card_interior_lt hid)
    exact ⟨n, hn, nodeText_eq hn⟩

theorem length_le_byteLength {ts : List Token} (h : ∀ t ∈ ts, t.text ≠ "") :
    ts.length ≤ byteLength (textOf ts) := by
  induction ts with
  | nil => exact Nat.le_refl _
  | cons t ts ih =>
    obtain ⟨ht, hts⟩ := List.forall_mem_cons.mp h
    have hpos : byteLength t.text.toList ≠ 0 := by
      rw [Ne, byteLength_eq_zero_iff]
      simpa using ht
    have hlater := ih hts
    rw [textOf_cons, byteLength_append, List.length_cons]
    omega

theorem byteLength_stripMark_le (cs : List Char) : byteLength (stripMark cs) ≤ byteLength cs := by
  unfold stripMark
  split
  · rw [byteLength_cons]
    exact Nat.le_add_left _ _
  · exact Nat.le_refl _

/-- Every node has a token of its own, and no token is empty. -/
theorem size_le_of_parse {options : Options} {text : String} {tree : Tree}
    (h : parse options text = .ok tree) : tree.size ≤ text.utf8ByteSize := by
  obtain ⟨hfatal, rfl⟩ := treeOf_of_parse h
  have hnodes := (Parse.records_treeOf options.context text hfatal).1.length_le
  have htokens : (tokenize text).length ≤ byteLength (textOf (tokenize text)) :=
    length_le_byteLength fun t ↦ text_ne_empty_of_mem_tokenize
  have hbytes : byteLength text.toList = text.utf8ByteSize := by
    rw [← utf8ByteSize_ofList, String.ofList_toList]
  rw [List.length_map, List.length_map, Tree.length_places] at hnodes
  calc
    _ ≤ (tokenize text).length := hnodes
    _ ≤ byteLength (textOf (tokenize text)) := htokens
    _ = byteLength (stripMark text.toList) := by
      rw [← Sheet.text_ofText options.context]
      rfl
    _ ≤ text.utf8ByteSize := hbytes ▸ byteLength_stripMark_le _

/-- No text and no mode makes the parser miss anything, and no edit of a field the printer. -/
theorem missesNothing (options : Options) (text : String) : MissesNothing options text where
  tokens _ ht := Sheet.slice_token options.context ht
  parsed := read?_eq options text
  numbers _ := size_le_of_parse
  edited tree _ _ ha := prints_of_acyclic ((Arena.acyclic_ofTree tree).of_fieldEdits ha)
  printed _ _ := text_eq

end Stylesheet.Checked
