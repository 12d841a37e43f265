import Stylesheet.Proofs.Arena.Order
import Stylesheet.Proofs.Parse.Gaps

/-!
# The shapes of entries

What is known of the fields of a tree goes over to the entries of its arena (`shaped_of_parse`): an
entry says what is said at its place, and a block that is stored has the gaps of the node.
-/

namespace Stylesheet

/-- The text behind the last child, where there can be children. -/
def Content.after? : Content → Option String
  | leaf _ => none
  | block _ _ after _ => some after

/-- In front of the node there is a gap, and behind its last child. -/
structure Content.Gapped (content : Content) : Prop where
  before : IsGap content.before.toList
  after : ∀ after ∈ content.after?, IsGap after.toList

namespace Arena

theorem Stores.gapped {a : Arena} {parent : Container} {id : NodeId} {n : Node}
    (h : a.Stores parent id n) (hn : n.Gapped) :
    ∃ entry, a.entry? id = some entry ∧ entry.content.Gapped := by
  cases hn with
  | leaf hbefore =>
    rw [Stores] at h
    exact ⟨_, h, hbefore, fun _ hafter ↦ nomatch hafter⟩
  | block hbefore _ hafter =>
    rw [Stores] at h
    refine ⟨_, h.1, hbefore, fun after hmem ↦ ?_⟩
    rw [← Option.some.inj hmem]
    exact hafter

variable {options : Options} {text : String} {tree : Tree} {id : NodeId} {entry : Entry}

theorem shaped_entry_of_parse (h : parse options text = .ok tree)
    (hentry : Arena.entry? (Arena.ofTree tree) id = some entry) :
    entry.content.opening.Shaped := by
  obtain ⟨place, hplace, -, hopening, -⟩ := exists_place_ofTree tree hentry
  rw [hopening]
  exact shaped_place_of_parse h place (List.mem_of_getElem? hplace)

theorem gapped_entry_of_parse (hstrict : options.strict = true)
    (h : parse options text = .ok tree)
    (hentry : Arena.entry? (Arena.ofTree tree) id = some entry) : entry.content.Gapped := by
  obtain ⟨container, n, hn, hgap⟩ := exists_inside_ofTree
    (fun _ _ _ _ _ hblock ↦ by cases hblock with | block _ hchildren _ => exact hchildren)
    (gapped_of_parse hstrict h).rules (Array.getElem?_eq_some_iff.mp hentry).1
  obtain ⟨entry', hentry', hgapped⟩ := hn.gapped hgap
  rw [hentry, Option.some.injEq] at hentry'
  rwa [hentry']

end Arena

/-- In the arena of a parsed text every field has its shape. If parsing was strict, there is nothing
but blanks and semicolons between the nodes. -/
theorem shaped_of_parse (options : Options) (text : String) (tree : Tree)
    (h : parse options text = .ok tree) :
    let a := Arena.ofTree tree
    (∀ id entry, a.entry? id = some entry → entry.content.opening.Shaped) ∧
      (options.strict = true → IsGap a.after.toList ∧
        ∀ id entry, a.entry? id = some entry → entry.content.Gapped) :=
  ⟨fun _ _ hentry ↦ Arena.shaped_entry_of_parse h hentry,
    fun hstrict ↦ ⟨(gapped_of_parse hstrict h).after,
      fun _ _ hentry ↦ Arena.gapped_entry_of_parse hstrict h hentry⟩⟩

theorem shaped_of_parse_marked :
    ∃ tree, parse { strict := true } "@page /*x*/ \x7b a : 1 ! IMPORTANT ; ;\x7d " = .ok tree ∧
      (Arena.ofTree tree).size = 2 ∧
      (∀ id entry, Arena.entry? (Arena.ofTree tree) id = some entry →
        entry.content.opening.Shaped ∧ entry.content.Gapped) := by
  have hsize : ((parse { strict := true }
      "@page /*x*/ \x7b a : 1 ! IMPORTANT ; ;\x7d ").toOption.map fun tree ↦
        (Arena.ofTree tree).size) = some 2 := by decide +kernel
  obtain ⟨tree, htree, htwo⟩ := exists_of_toOption hsize
  obtain ⟨hshaped, hgapped⟩ := shaped_of_parse _ _ tree htree
  exact ⟨tree, htree, htwo, fun id entry hentry ↦
    ⟨hshaped id entry hentry, (hgapped rfl).2 id entry hentry⟩⟩

end Stylesheet
