import Stylesheet.Arena.Edit
import Stylesheet.Proofs.Arena.Order
import Stylesheet.Proofs.Parse.Origins
import Stylesheet.Proofs.Parse.Value

/-!
# Setting the flag of a declaration

An edit that puts a declaration in the place of another prints the new one
(`Arena.nodeText?_updateContent?`). With the flag set, what is printed behind the colon is the value
with a marker or without one, as the flag says (`printed_of_parse_flagged`).
-/

namespace Stylesheet

open Text

namespace Arena

theorem exists_updateContent? {a : Arena} {id : NodeId} {entry : Entry}
    (hentry : a.entry? id = some entry) {f : Content → Option Content} {content : Content}
    (hcontent : f entry.content = some content) :
    ∃ updated, a.updateContent? id f = some updated ∧
      updated.entry? id = some { entry with content } := by
  obtain ⟨hlt, -⟩ := Array.getElem?_eq_some_iff.mp hentry
  refine ⟨{ a with entries := a.entries.setIfInBounds id { entry with content } }, ?_, ?_⟩
  · simp [updateContent?, update?, hentry, hcontent]
  · simp [Arena.entry?, Array.getElem?_setIfInBounds_self_of_lt hlt]

/-- A node without others inside prints what its entry says. -/
theorem nodeText?_leaf {a : Arena} {id : NodeId} {entry : Entry} {leaf : Leaf}
    (hentry : a.entry? id = some entry) (hleaf : entry.content = .leaf leaf) :
    a.nodeText? id = some (leaf.addTo "") := by
  obtain ⟨hlt, -⟩ := Array.getElem?_eq_some_iff.mp hentry
  obtain ⟨depth, hdepth⟩ := Nat.exists_eq_add_of_lt (Nat.lt_of_le_of_lt (Nat.zero_le id) hlt)
  have hsize : a.size = depth + 1 := by
    rw [size, hdepth, Nat.zero_add]
  simp [nodeText?, node?, hsize, expand?, hentry, hleaf]

end Arena

theorem holds_of_parse {options : Options} {text : String} {tree : Tree}
    (h : parse options text = .ok tree) {id : NodeId} {entry : Entry} {d : Declaration}
    (hentry : Arena.entry? (Arena.ofTree tree) id = some entry)
    (hd : entry.content = .leaf (.declaration d)) :
    ∃ written, d.Holds (Value.read written) := by
  obtain ⟨place, hplace, -, hopening, -⟩ := Arena.exists_place_ofTree tree hentry
  obtain ⟨before, ts, behind, -, -, hfrom⟩ :=
    readIn_of_parse h place (List.mem_of_getElem? hplace)
  rw [← hopening, hd] at hfrom
  cases hfrom with
  | declaration hread =>
    obtain ⟨front, colon, later, -, -, -, -, -, hholds⟩ := Declaration.exists_of_ofTokens? hread
    exact ⟨_, hholds⟩
  | property => exact ⟨[], Declaration.holds_ofProperty _ _⟩

/-- The flag of every declaration of a parsed text can be set. If the value has no marker of its own
or the flag says that it is important, what is then printed behind the colon is read as the same
value, with the same blanks behind. A flag that stays as it was leaves all as it was written. -/
theorem printed_of_parse_flagged (options : Options) (text : String) (tree : Tree)
    (h : parse options text = .ok tree) (id : NodeId) (entry : Entry) (d : Declaration)
    (hentry : Arena.entry? (Arena.ofTree tree) id = some entry)
    (hd : entry.content = .leaf (.declaration d)) (b : Bool) :
    ∃ a s, (Arena.ofTree tree).setFlag? .important b (.node id) = some a ∧
      a.nodeText? id = some (d.before ++ d.prop ++ d.between ++ s) ∧
      (b = true ∨ splitImportant? d.value.toList = none →
        (Value.read s.toList).text = d.value.toList ∧
          (Value.read s.toList).marker.isSome = b ∧
          (Value.read s.toList).blanks = trailingBlanks d.after.toList) ∧
      (b = d.important → s = d.value ++ d.after) := by
  obtain ⟨written, hholds⟩ := holds_of_parse h hentry hd
  have hset : Content.setFlag? .important b entry.content =
      some (.leaf (.declaration { d with important := b })) := by
    rw [hd]
    rfl
  obtain ⟨a, ha, hnew⟩ := Arena.exists_updateContent? hentry hset
  refine ⟨a, d.value ++ { d with important := b }.ending, ha, ?_, ?_, ?_⟩
  · rw [Arena.nodeText?_leaf hnew rfl]
    simp [Leaf.addTo, Declaration.addTo, String.append_assoc]
  · intro hb
    exact hholds.read_flagged hb
  · intro hsame
    rw [hholds.ending_flagged, if_pos hsame]

theorem printed_of_parse_flagged_unset :
    ∃ tree d, parse {} "a\x7bb: é! ! IMPORTANT ;\x7d" = .ok tree ∧
      (∃ entry, Arena.entry? (Arena.ofTree tree) 1 = some entry ∧
        entry.content = .leaf (.declaration d)) ∧
      d.important = true ∧ ∃ a s, (Arena.ofTree tree).setFlag? .important false (.node 1) = some a ∧
        a.nodeText? 1 = some (d.before ++ d.prop ++ d.between ++ s) ∧
          (Value.read s.toList).text = d.value.toList ∧
          (Value.read s.toList).marker = none := by
  have hentry : ((parse {} "a\x7bb: é! ! IMPORTANT ;\x7d").toOption.map fun tree ↦
      (Arena.entry? (Arena.ofTree tree) 1).map Entry.content) =
        some (some (.leaf (.declaration ⟨"", "b", ": ", "é!", true, " ! IMPORTANT "⟩))) := by
    decide +kernel
  obtain ⟨tree, htree, hfound⟩ := exists_of_toOption hentry
  obtain ⟨entry, hentry, hcontent⟩ := Option.map_eq_some_iff.mp hfound
  obtain ⟨a, s, ha, htext, hread, -⟩ :=
    printed_of_parse_flagged {} _ tree htree 1 entry _ hentry hcontent false
  have hplain : splitImportant? "é!".toList = none := by decide
  obtain ⟨hvalue, hmarker, -⟩ := hread (.inr hplain)
  exact ⟨tree, _, htree, ⟨entry, hentry, hcontent⟩, rfl, a, s, ha, htext, hvalue,
    by simpa using hmarker⟩

end Stylesheet
