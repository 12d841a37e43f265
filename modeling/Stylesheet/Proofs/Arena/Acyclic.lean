import Mathlib.Data.Finset.Card
import Mathlib.Data.Finset.Range
import Mathlib.Logic.Relation
import Stylesheet.Arena.Edit
import Stylesheet.Proofs.Arena.Stored

/-!
# Arenas that hold a tree

An arena has a tree if no node is inside of itself and no list leads to an unknown number
(`Acyclic.exists_tree?`): a node then has fewer nodes inside of it than the arena has, and each of
its children fewer still. The arenas of trees are such, and listing other nodes at the top, or
fewer nodes anywhere, keeps them so (`acyclic_ofTree`, `Acyclic.of_lists`).
-/

namespace Stylesheet.Arena

/-- The node is inside the other, at any depth. -/
def Inside (a : Arena) : NodeId → NodeId → Prop :=
  Relation.TransGen fun c id ↦ a.Lists (.node c) id

structure Acyclic (a : Arena) : Prop where
  lt_size : ∀ container id, a.Lists container id → id < a.size
  not_inside : ∀ id, ¬ a.Inside id id

variable {a b : Arena}

/-- The nodes inside of a node. -/
noncomputable def interior (a : Arena) (id : NodeId) : Finset NodeId :=
  open Classical in (Finset.range a.size).filter (a.Inside id)

theorem mem_interior {id i : NodeId} : i ∈ a.interior id ↔ i < a.size ∧ a.Inside id i := by
  classical
  simp [interior]

namespace Acyclic

theorem interior_ssubset (h : a.Acyclic) {c id : NodeId} (hlists : a.Lists (.node c) id) :
    a.interior id ⊂ a.interior c := by
  refine Finset.ssubset_iff_subset_ne.mpr ⟨fun i hi ↦ ?_, fun hsame ↦ ?_⟩
  · obtain ⟨hlt, hinside⟩ := mem_interior.mp hi
    exact mem_interior.mpr ⟨hlt, .head hlists hinside⟩
  · have hmem : id ∈ a.interior c :=
      mem_interior.mpr ⟨h.lt_size _ _ hlists, .single hlists⟩
    rw [← hsame] at hmem
    exact h.not_inside id (mem_interior.mp hmem).2

theorem card_interior_lt (h : a.Acyclic) {id : NodeId} (hid : id < a.size) :
    (a.interior id).card < a.size := by
  have hsubset : a.interior id ⊂ Finset.range a.size := by
    refine Finset.ssubset_iff_subset_ne.mpr ⟨fun i hi ↦ ?_, fun hsame ↦ ?_⟩
    · exact Finset.mem_range.mpr (mem_interior.mp hi).1
    · have hmem : id ∈ a.interior id := hsame ▸ Finset.mem_range.mpr hid
      exact h.not_inside id (mem_interior.mp hmem).2
  have hcard := Finset.card_lt_card hsubset
  rwa [Finset.card_range] at hcard

/-- As many steps as there are nodes inside are enough. -/
theorem exists_expand? (h : a.Acyclic) {depth : Nat} {id : NodeId} (hid : id < a.size)
    (hdepth : (a.interior id).card < depth) : ∃ n, a.expand? depth id = some n := by
  induction depth generalizing id with
  | zero => exact absurd hdepth (Nat.not_lt_zero _)
  | succ depth ih =>
    have hentry : a.entry? id = some a.entries[id] := Array.getElem?_eq_getElem hid
    cases hcontent : a.entries[id].content with
    | leaf l => exact ⟨.leaf a.entries[id].source l, by simp [expand?, hentry, hcontent]⟩
    | block head children after semicolon =>
      have hlists (child : NodeId) (hchild : child ∈ children) : a.Lists (.node id) child := by
        refine ⟨children, ?_, hchild⟩
        rw [Arena.children?, hentry, Option.map_some, hcontent]
        rfl
      have hchildren : ∃ ns, children.mapM (a.expand? depth) = some ns := by
        refine (exists_mapM fun child hchild ↦ ?_).imp fun _ ↦ And.left
        have hless := Finset.card_lt_card (h.interior_ssubset (hlists child hchild))
        exact ih (h.lt_size _ _ (hlists child hchild)) (by omega)
      obtain ⟨ns, hns⟩ := hchildren
      exact ⟨.block a.entries[id].source head ns after semicolon,
        by simp [expand?, hentry, hcontent, hns]⟩

theorem exists_tree? (h : a.Acyclic) : ∃ t, a.tree? = some t := by
  have hrules : ∃ ns, a.rules.mapM a.node? = some ns := by
    refine (exists_mapM fun id hid ↦ ?_).imp fun _ ↦ And.left
    have hlt := h.lt_size .root id ⟨a.rules, rfl, hid⟩
    exact h.exists_expand? hlt (h.card_interior_lt hlt)
  obtain ⟨ns, hns⟩ := hrules
  exact ⟨_, by rw [tree?, hns]; rfl⟩

/-- Nodes come to be inside of each other only where a node gets a new child. -/
theorem of_lists (h : a.Acyclic) (hsize : b.size = a.size)
    (hlists : ∀ c id, b.Lists (.node c) id → a.Lists (.node c) id)
    (hrules : ∀ id ∈ b.rules, id < b.size) : b.Acyclic where
  lt_size container id hid := by
    cases container with
    | root =>
      obtain ⟨children, hchildren, hmem⟩ := hid
      obtain rfl := Option.some.inj hchildren
      exact hrules id hmem
    | node c =>
      rw [hsize]
      exact h.lt_size _ _ (hlists c id hid)
  not_inside id hid := h.not_inside id (Relation.TransGen.mono hlists id id hid)

end Acyclic

/-- In the arena of a tree the nodes of a block come behind it. -/
theorem lt_of_lists (t : Tree) {c id : NodeId} (h : (Arena.ofTree t).Lists (.node c) id) :
    c < id := by
  obtain ⟨parent, source, head, ns, after, semicolon, -, hmem⟩ := exists_block t h
  exact Node.le_of_mem_numbers hmem

theorem lt_of_inside (t : Tree) {c id : NodeId} (h : (Arena.ofTree t).Inside c id) : c < id := by
  induction h with
  | single h => exact lt_of_lists t h
  | tail _ h ih => exact Nat.lt_trans ih (lt_of_lists t h)

theorem acyclic_ofTree (t : Tree) : (Arena.ofTree t).Acyclic where
  lt_size container id hid := by
    obtain ⟨children, hchildren, hmem⟩ := hid
    obtain ⟨first, ns, rfl, hns⟩ := exists_siblings t hchildren
    obtain ⟨n, -, hn⟩ := hns.exists_of_mem hmem
    exact hn.lt_size
  not_inside id hinside := Nat.lt_irrefl id (lt_of_inside t hinside)

end Stylesheet.Arena
