import Stylesheet.Node.Size
import Stylesheet.Proofs.Node.Siblings

/-!
# Places

A node has a place in the text that its tree prints: all that is printed in front of it, in its
container and around it. `Tree.places` lists the places of all nodes, each in front of those inside
of it, which is the order of the text.

Another node at the end of a container leaves the places in front of it as they are
(`Node.placesAll_append_plain`). The text in front of a comment depends on whether the container's
last statement has a semicolon, and that of any other node does not.
-/

namespace Stylesheet

/-- What a node says before anything inside of it. -/
inductive Opening where
  | leaf (leaf : Leaf)
  | block (head : Head)

namespace Opening

def kind : Opening → NodeKind
  | leaf l => l.kind
  | block head => head.kind

def before : Opening → String
  | leaf l => l.before
  | block head => head.before

end Opening

structure Place where
  /-- All that is printed in front of the node. -/
  front : String
  /-- What the container of the node may hold. -/
  within : BodyKind
  source : Source
  opening : Opening

/-- The text up to the node, and the white space and the like that the node has in front. -/
def Place.lead (place : Place) : String :=
  place.front ++ place.opening.before

namespace Node

mutual

def places (front : String) (within : BodyKind) : Node → List Place
  | leaf source l => [⟨front, within, source, .leaf l⟩]
  | block source head children _ semicolon =>
    ⟨front, within, source, .block head⟩ ::
      placesAll (front ++ head.addTo "" ++ "\x7b") head.body semicolon children

def placesAll (front : String) (within : BodyKind) (semicolon : Bool) : List Node → List Place
  | [] => []
  | n :: behind =>
    let separator := if n.needsSemicolon semicolon behind then ";" else ""
    places front within n ++ placesAll (front ++ n.text ++ separator) within semicolon behind

end

variable (front : String) (within : BodyKind) (semicolon : Bool)

@[simp]
theorem places_leaf (source : Source) (l : Leaf) :
    (leaf source l).places front within = [⟨front, within, source, .leaf l⟩] := by
  rw [places]

@[simp]
theorem places_block (source : Source) (head : Head) (children : List Node) (after : String) :
    (block source head children after semicolon).places front within =
      ⟨front, within, source, .block head⟩ ::
        placesAll (front ++ head.addTo "" ++ "\x7b") head.body semicolon children := by
  rw [places]

@[simp]
theorem placesAll_nil : placesAll front within semicolon [] = [] := by
  rw [placesAll]

@[simp]
theorem placesAll_cons (n : Node) (behind : List Node) :
    placesAll front within semicolon (n :: behind) =
      n.places front within ++
        placesAll (front ++ n.text ++ if n.needsSemicolon semicolon behind then ";" else "")
          within semicolon behind := by
  rw [placesAll]

mutual

theorem length_places (front : String) (within : BodyKind) (n : Node) :
    (n.places front within).length = n.size := by
  cases n with
  | leaf source l => rw [places_leaf, size, List.length_singleton]
  | block source head children after semicolon =>
    rw [places_block, size, List.length_cons, length_placesAll]

theorem length_placesAll (front : String) (within : BodyKind) (semicolon : Bool)
    (ns : List Node) : (placesAll front within semicolon ns).length = sizeAll ns := by
  cases ns with
  | nil => rw [placesAll_nil, sizeAll, List.length_nil]
  | cons n behind =>
    rw [placesAll_cons, sizeAll, List.length_append, length_places, length_placesAll]

end

/-- The node's own place comes first. -/
theorem exists_places_eq_cons (n : Node) :
    ∃ place behind, n.places front within = place :: behind ∧ place.front = front := by
  cases n with
  | leaf source l => exact ⟨_, _, places_leaf front within source l, rfl⟩
  | block source head children after semicolon =>
    exact ⟨_, _, places_block front within semicolon source head children after, rfl⟩

/-- Behind the places of the first siblings are those of the others. -/
theorem drop_placesAll_append (ns behind : List Node) :
    (placesAll front within semicolon (ns ++ behind)).drop (sizeAll ns) =
      placesAll (front ++ textBefore semicolon behind ns) within semicolon behind := by
  induction ns generalizing front with
  | nil => rw [List.nil_append, sizeAll, List.drop_zero, textBefore, String.append_empty]
  | cons n ns ih =>
    rw [List.cons_append, placesAll_cons, sizeAll, ← length_places front within n,
      List.drop_length_add_append, ih, textBefore]
    simp only [String.append_assoc]

/-! ## Another node at the end -/

theorem placesAll_append_comment (ns : List Node) {c : Node} (h : c.isComment = true) :
    placesAll front within semicolon (ns ++ [c]) =
      placesAll front within semicolon ns ++
        c.places (front ++ textAll semicolon ns) within := by
  induction ns generalizing front with
  | nil => simp
  | cons n ns ih =>
    have hneeds : n.needsSemicolon semicolon (ns ++ [c]) = n.needsSemicolon semicolon ns := by
      simp [needsSemicolon, h]
    rw [List.cons_append, placesAll_cons, ih, hneeds, placesAll_cons, textAll_cons]
    simp only [List.append_assoc, String.append_assoc]

theorem placesAll_append_plain (ns : List Node) {n : Node} (h : n.isComment = false) :
    placesAll front within semicolon (ns ++ [n]) =
      placesAll front within true ns ++ n.places (front ++ textAll true ns) within := by
  induction ns generalizing front with
  | nil => simp
  | cons m ns ih =>
    have hneeds : m.needsSemicolon semicolon (ns ++ [n]) = m.needsSemicolon true ns := by
      simp [needsSemicolon, h]
    rw [List.cons_append, placesAll_cons, ih, hneeds, placesAll_cons, textAll_cons]
    simp only [List.append_assoc, String.append_assoc]

/-- Where the last statement has its semicolon anyway, no place depends on it. -/
theorem placesAll_of_textAll_eq {ns : List Node} (h : textAll semicolon ns = textAll true ns) :
    placesAll front within semicolon ns = placesAll front within true ns := by
  obtain ⟨back, rfl⟩ : ∃ back : List Node, back.reverse = ns :=
    ⟨ns.reverse, List.reverse_reverse ns⟩
  induction back with
  | nil => rw [List.reverse_nil, placesAll_nil, placesAll_nil]
  | cons n back ih =>
    rw [List.reverse_cons] at h ⊢
    cases hcomment : n.isComment with
    | true =>
      rw [textAll_append_comment _ _ hcomment, textAll_append_comment _ _ hcomment] at h
      have htext := (String.append_left_inj n.text).mp h
      rw [placesAll_append_comment _ _ _ _ hcomment, placesAll_append_comment _ _ _ _ hcomment,
        htext, ih htext]
    | false =>
      rw [placesAll_append_plain _ _ _ _ hcomment, placesAll_append_plain _ _ _ _ hcomment]

end Node

def Tree.places (t : Tree) : List Place :=
  Node.placesAll "" .rules t.semicolon t.rules

theorem Tree.length_places (t : Tree) : t.places.length = t.size :=
  Node.length_placesAll "" .rules t.semicolon t.rules

end Stylesheet
