import Mathlib.Order.Interval.Finset.Nat
import Stylesheet.Proofs.Arena.Replaced
import Stylesheet.Proofs.Json.Arena

/-!
# Lookups

A number can come from another tree, and then it may be too large. Lookups do not differ about that:
either all of them find something, or none does (`agree_size`).

The numbers that a parsed tree lists itself are never too large, and those inside of a block are
larger than its own. So whoever goes through the lists, from whatever number, comes to an end and
meets no number that the tree does not have. Printing does, and so does writing as JSON
(`lookups_of_parse`).
-/

namespace Stylesheet

/-! ## Single lookups -/

/-- Each of the lookups that take a number finds something, or each of them does not. -/
structure Arena.Agree (a : Arena) (id : NodeId) (found : Bool) : Prop where
  entry : (a.entry? id).isSome = found
  update : ∀ f : Entry → Entry, (a.update? id fun entry ↦ some (f entry)).isSome = found
  parent : (a.parent? id).isSome = found
  children : (a.children? (.node id)).isSome = found
  firstChild : (a.firstChild? (.node id)).isSome = found
  lastChild : (a.lastChild? (.node id)).isSome = found
  text : (a.nodeText? id).isSome = found

namespace Arena

variable {a : Arena} {id : NodeId}

theorem isSome_entry? (a : Arena) (id : NodeId) :
    (a.entry? id).isSome = decide (id < a.size) := by
  rw [Bool.eq_iff_iff, decide_eq_true_iff]
  simp [Arena.entry?, size]

theorem entry?_eq_none (h : a.size ≤ id) : a.entry? id = none :=
  Array.getElem?_eq_none h

/-- What has no entry has no text. -/
theorem node?_eq_none (h : a.size ≤ id) : a.node? id = none := by
  unfold node?
  cases a.size with
  | zero => rfl
  | succ depth =>
    rw [expand?, entry?_eq_none h]
    rfl

/-- The numbers that the lookups find are those of the entries. -/
theorem Acyclic.agree_size (h : a.Acyclic) (id : NodeId) :
    a.Agree id (decide (id < a.size)) := by
  have hentry := a.isSome_entry? id
  have htext : (a.nodeText? id).isSome = decide (id < a.size) := by
    rw [nodeText?, Option.isSome_map]
    by_cases hid : id < a.size
    · obtain ⟨n, hn⟩ := h.exists_expand? hid (h.card_interior_lt hid)
      rw [node?, hn, decide_eq_true hid]
      rfl
    · rw [node?_eq_none (Nat.le_of_not_lt hid), decide_eq_false hid]
      rfl
  have hupdate (f : Entry → Entry) :
      (a.update? id fun entry ↦ some (f entry)).isSome = (a.entry? id).isSome := by
    rw [update?]
    cases a.entry? id <;> rfl
  refine ⟨hentry, fun f ↦ (hupdate f).trans hentry, ?_, ?_, ?_, ?_, htext⟩
  · rw [parent?, Option.isSome_map, hentry]
  · rw [children?, Option.isSome_map, hentry]
  · rw [firstChild?, children?, Option.isSome_map, Option.isSome_map, hentry]
  · rw [lastChild?, children?, Option.isSome_map, Option.isSome_map, hentry]

/-- A node has no more levels inside of it than there are numbers behind its own. -/
theorem exists_expand?_ofTree (t : Tree) {depth : Nat} (hid : id < (Arena.ofTree t).size)
    (hdepth : (Arena.ofTree t).size ≤ id + depth) :
    ∃ n, (Arena.ofTree t).expand? depth id = some n := by
  refine (acyclic_ofTree t).exists_expand? hid ?_
  have hbehind : (Arena.ofTree t).interior id ⊆ Finset.Ioo id (Arena.ofTree t).size := by
    intro i hi
    obtain ⟨hlt, hinside⟩ := mem_interior.mp hi
    exact Finset.mem_Ioo.mpr ⟨lt_of_inside t hinside, hlt⟩
  have hcard := Finset.card_le_card hbehind
  rw [Nat.card_Ioo] at hcard
  have hlast := Nat.succ_le_of_lt hid
  omega

end Arena

/-! ## Writing as JSON -/

namespace Checked

def nodeJson (a : Arena) : (depth : Nat) → NodeId → Run Json
  | 0, _ => .error .missing
  | depth + 1, id => do
    let entry ← reach (a.entry? id)
    let source := ("source", entry.source.toJson)
    match entry.content with
    | .leaf l => return .object (("type", .string l.kind.name) :: l.members ++ [source])
    | .block head children after semicolon =>
      let items ← children.mapM (nodeJson a depth)
      return .object (("type", .string head.kind.name) :: head.members ++
        [(head.body.name, .list items), ("after", .string after)] ++
        Members.flag "semicolon" semicolon ++ [source])

def json (a : Arena) : Run String := do
  let rules ← a.rules.mapM (nodeJson a a.size)
  let source : Members :=
    match a.file with
    | some file => [("source", .object [("file", .string file)])]
    | none => []
  return (Json.object ([("type", .string NodeKind.root.name), ("rules", .list rules),
    ("after", .string a.after)] ++ Members.flag "semicolon" a.semicolon ++ source)).text

variable {a : Arena} {depth : Nat} {id : NodeId} {ids : List NodeId} {n : Node} {ns : List Node}

theorem mapM_nodeJson_eq
    (hjson : ∀ id n, a.expand? depth id = some n → nodeJson a depth id = .ok n.toJson)
    (h : ids.mapM (a.expand? depth) = some ns) :
    ids.mapM (nodeJson a depth) = .ok (Node.toJsonAll ns) := by
  induction ids generalizing ns with
  | nil =>
    obtain rfl : [] = ns := Option.some.inj h
    rw [Node.toJsonAll]
    rfl
  | cons id ids ih =>
    obtain ⟨n, behind, rfl, hn, hbehind⟩ := exists_of_mapM_cons h
    rw [List.mapM_cons, hjson id n hn, ok_bind, ih hbehind, ok_bind, Node.toJsonAll]
    rfl

theorem nodeJson_eq (h : a.expand? depth id = some n) : nodeJson a depth id = .ok n.toJson := by
  induction depth generalizing id n with
  | zero => contradiction
  | succ depth ih =>
    rw [nodeJson]
    cases expands_of_expand? h with
    | leaf hentry =>
      rw [hentry, reach_some, ok_bind, Node.toJson]
      rfl
    | block hentry hchildren =>
      rw [hentry, reach_some, ok_bind, Node.toJson]
      dsimp only
      rw [mapM_nodeJson_eq (fun _ _ ↦ ih) hchildren, ok_bind]
      rfl

theorem json_eq {t : Tree} (h : a.tree? = some t) : json a = .ok t.toJson.text := by
  simp only [Arena.tree?, Option.bind_eq_bind, Option.bind_eq_some_iff] at h
  obtain ⟨rules, hrules, h⟩ := h
  obtain rfl := Option.some.inj h
  rw [json, mapM_nodeJson_eq (fun _ _ ↦ nodeJson_eq) hrules, ok_bind]
  rfl

/-! ## Going through the lists -/

theorem nodeText_eq_error (h : a.size ≤ id) (depth : Nat) :
    nodeText a depth id = .error .missing := by
  cases depth with
  | zero => rfl
  | succ depth =>
    rw [nodeText, Arena.entry?_eq_none h]
    rfl

/-- The lists name nodes of the arena, and blocks come in front of what is in them. So printing and
writing, from a node or from the top, look up what is there, level by level, and have at most as
many levels to go through as numbers are left. -/
structure Traversable (a : Arena) : Prop where
  known : ∀ container id, a.Lists container id → id < a.size
  behind : ∀ i j, a.Inside i j → i < j
  node : ∀ id < a.size, ∃ text, a.nodeText? id = some text ∧
    ∀ depth, a.size ≤ id + depth → nodeText a depth id = .ok text
  text : ∃ text, a.text? = some text ∧ Checked.text a = .ok text
  json : ∃ text, a.json? = some text ∧ Checked.json a = .ok text

theorem traversable_ofTree (t : Tree) : Traversable (Arena.ofTree t) where
  known := (Arena.acyclic_ofTree t).lt_size
  behind _ _ := Arena.lt_of_inside t
  node id hid := by
    obtain ⟨n, hn⟩ := Arena.exists_expand?_ofTree t hid (Nat.le_add_left _ id)
    refine ⟨n.text, by rw [Arena.nodeText?, Arena.node?, hn]; rfl, fun depth hdepth ↦ ?_⟩
    obtain ⟨m, hm⟩ := Arena.exists_expand?_ofTree t hid hdepth
    -- More levels than there are make no difference.
    have hdeep := Arena.expand?_of_le hm (Nat.le_max_right (Arena.ofTree t).size depth)
    rw [Arena.expand?_of_le hn (Nat.le_max_left _ depth), Option.some.injEq] at hdeep
    rw [hdeep]
    exact nodeText_eq hm
  text := ⟨t.text, by rw [Arena.text?, Arena.tree?_ofTree]; rfl, text_eq (Arena.tree?_ofTree t)⟩
  json := ⟨t.toJson.text, by rw [Arena.json?, Arena.tree?_ofTree]; rfl,
    json_eq (Arena.tree?_ofTree t)⟩

end Checked

open Checked

/-- Every number, from whichever tree it is, is found in a parsed tree by all of the lookups or by
none, and those with an entry are found. From there on nothing is looked up that is missing. -/
theorem lookups_of_parse (options : Options) (text : String) (tree : Tree)
    (h : parse options text = .ok tree) :
    let b := Arena.ofTree tree
    (∃ events, read? options text = some (events, .ok b)) ∧
      (∀ id, b.Agree id (decide (id < b.size))) ∧
      Traversable b ∧
      ∀ id, b.size ≤ id → ∀ depth, nodeText b depth id = .error .missing := by
  intro b
  refine ⟨⟨(read options text).events, ?_⟩, (Arena.acyclic_ofTree tree).agree_size,
    traversable_ofTree tree, fun id ↦ nodeText_eq_error⟩
  have hresult : (read options text).result = .ok tree := h
  rw [read?_eq, hresult]
  rfl

/-- The last number of a larger tree. -/
theorem lookups_of_parse_two_nodes :
    ∃ tree, parse {} "a\x7bb:c" = .ok tree ∧ (Arena.ofTree tree).size = 2 ∧
      (Arena.ofTree tree).Agree 1 true ∧ (Arena.ofTree tree).Agree 2 false ∧
      ∀ depth, nodeText (Arena.ofTree tree) depth 2 = .error .missing := by
  have hsize : ((parse {} "a\x7bb:c").toOption.map fun tree ↦ (Arena.ofTree tree).size) =
      some 2 := by decide +kernel
  obtain ⟨tree, htree, htwo⟩ := exists_of_toOption hsize
  obtain ⟨-, hagree, -, hmissing⟩ := lookups_of_parse {} "a\x7bb:c" tree htree
  have hfound := hagree 1
  have hnot := hagree 2
  rw [htwo] at hfound hnot
  exact ⟨tree, htree, htwo, hfound, hnot, hmissing 2 (Nat.le_of_eq htwo)⟩

end Stylesheet
