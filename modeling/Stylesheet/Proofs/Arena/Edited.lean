import Stylesheet.Proofs.Arena.Acyclic

/-!
# Fields set by edits

An edit of a text, a flag or a place leaves all lists of children alone (`FieldEdit.sameLists`).
So an arena that holds a tree still holds one after any number of such edits
(`Acyclic.of_fieldEdits`).
-/

namespace Stylesheet

theorem Content.children_setText? {content new : Content} {field : TextField} {value : String}
    (h : content.setText? field value = some new) : new.children = content.children := by
  cases content with
  | leaf l =>
    obtain ⟨l', -, rfl⟩ := Option.map_eq_some_iff.mp h
    rfl
  | block head children after semicolon =>
    rw [setText?] at h
    split at h
    · obtain rfl := Option.some.inj h
      rfl
    · obtain ⟨head', -, rfl⟩ := Option.map_eq_some_iff.mp h
      rfl

theorem Content.children_setFlag? {content new : Content} {field : FlagField} {value : Bool}
    (h : content.setFlag? field value = some new) : new.children = content.children := by
  revert h
  fun_cases content.setFlag? field value with
  | case1 | case4 =>
    intro h
    obtain rfl := Option.some.inj h
    rfl
  | case2 | case3 | case5 =>
    intro h
    contradiction

namespace Arena

variable {a b : Arena} {id : NodeId}

/-- One field of one node or of the top gets another value. -/
inductive FieldEdit (a b : Arena) : Prop where
  | text (field : TextField) (value : String) (container : Container)
      (h : a.setText? field value container = some b)
  | flag (field : FlagField) (value : Bool) (container : Container)
      (h : a.setFlag? field value container = some b)
  | place (field : PlaceField) (value : Nat) (container : Container)
      (h : a.setPlace? field value container = some b)

/-- The arenas have the same numbers, and every container lists the same. -/
structure SameLists (a b : Arena) : Prop where
  size : b.size = a.size
  children : ∀ container, b.children? container = a.children? container

theorem sameLists_update? {f : Entry → Option Entry}
    (hf : ∀ entry new, f entry = some new → new.content.children = entry.content.children)
    (h : a.update? id f = some b) : a.SameLists b := by
  simp only [update?, Option.bind_eq_bind, Option.bind_eq_some_iff] at h
  obtain ⟨old, hold, new, hnew, hb⟩ := h
  obtain rfl := Option.some.inj hb
  refine ⟨Array.size_setIfInBounds, fun container ↦ ?_⟩
  cases container with
  | root => rfl
  | node i =>
    rw [children?, children?]
    by_cases hi : i = id
    · have hlt := (Array.getElem?_eq_some_iff.mp hold).1
      rw [hi, hold, Option.map_some, ← hf old new hnew, Arena.entry?,
        Array.getElem?_setIfInBounds_self_of_lt hlt, Option.map_some]
    · rw [Arena.entry?, Array.getElem?_setIfInBounds_ne (Ne.symm hi)]
      rfl

theorem sameLists_updateContent? {f : Content → Option Content}
    (hf : ∀ content new, f content = some new → new.children = content.children)
    (h : a.updateContent? id f = some b) : a.SameLists b := by
  refine sameLists_update? (fun entry new hnew ↦ ?_) h
  obtain ⟨content, hcontent, rfl⟩ := Option.map_eq_some_iff.mp hnew
  exact hf _ _ hcontent

theorem FieldEdit.sameLists (h : FieldEdit a b) : a.SameLists b := by
  cases h with
  | text field value container h =>
    cases container with
    | root =>
      obtain ⟨-, hb⟩ := Option.ite_none_right_eq_some.mp h
      obtain rfl := Option.some.inj hb
      exact ⟨rfl, fun container ↦ by cases container <;> rfl⟩
    | node id => exact sameLists_updateContent? (fun _ _ ↦ Content.children_setText?) h
  | flag field value container h =>
    cases container with
    | root =>
      obtain ⟨-, hb⟩ := Option.ite_none_right_eq_some.mp h
      obtain rfl := Option.some.inj hb
      exact ⟨rfl, fun container ↦ by cases container <;> rfl⟩
    | node id => exact sameLists_updateContent? (fun _ _ ↦ Content.children_setFlag?) h
  | place field value container h =>
    cases container with
    | root => contradiction
    | node id =>
      refine sameLists_update? (fun entry new hnew ↦ ?_) h
      obtain rfl := Option.some.inj hnew
      rfl

theorem Acyclic.of_sameLists (h : a.Acyclic) (hb : a.SameLists b) : b.Acyclic := by
  have hlists (container : Container) (id : NodeId) (hid : b.Lists container id) :
      a.Lists container id := by
    rwa [Lists, hb.children] at hid
  refine h.of_lists hb.size (fun c ↦ hlists (.node c)) fun id hid ↦ ?_
  rw [hb.size]
  exact h.lt_size .root id (hlists .root id ⟨_, rfl, hid⟩)

theorem Acyclic.of_fieldEdits (h : a.Acyclic) (hb : Relation.ReflTransGen FieldEdit a b) :
    b.Acyclic := by
  induction hb with
  | refl => exact h
  | tail _ hedit ih => exact ih.of_sameLists hedit.sameLists

end Arena

end Stylesheet
