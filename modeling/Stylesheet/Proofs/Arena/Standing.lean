import Mathlib.Data.List.Infix
import Stylesheet.Proofs.Arena.Order

/-!
# Where nodes stand

The text that an arena prints has each node in it, with the siblings of the node and the containers
around it (`Arena.Stands`). In the arena of a parsed text, what is printed in front of a node ends
where the text reaches the position recorded with the node (`sources_of_parse`).
-/

namespace Stylesheet

namespace Arena

/-- The node is one of the siblings, and `front` and `back` are what the others print. -/
def Among (a : Arena) (semicolon : Bool) (siblings : List NodeId) (id : NodeId)
    (front back : String) : Prop :=
  ∃ before behind ns n ms, siblings = before ++ id :: behind ∧
    before.mapM a.node? = some ns ∧ a.node? id = some n ∧ behind.mapM a.node? = some ms ∧
    front = Node.textBefore semicolon (n :: ms) ns ∧
    back = (if n.needsSemicolon semicolon ms then ";" else "") ++ Node.textAll semicolon ms

/-- The arena prints `front` and `back` around the node. -/
inductive Stands (a : Arena) : (id : NodeId) → (front back : String) → Prop
  | top {id : NodeId} {front back : String} (among : a.Among a.semicolon a.rules id front back) :
      Stands a id front (back ++ a.after)
  | inside {container id : NodeId} {front back front' back' after : String} {parent : Container}
      {source : Source} {head : Head} {children : List NodeId} {semicolon : Bool}
      (outer : Stands a container front back)
      (entry_eq : a.entry? container =
        some ⟨parent, source, .block head children after semicolon⟩)
      (among : a.Among semicolon children id front' back') :
      Stands a id (front ++ head.addTo "" ++ "\x7b" ++ front') (back' ++ after ++ "\x7d" ++ back)

variable {a : Arena} {parent : Container} {id first : NodeId} {ns : List Node} {semicolon : Bool}
variable {front back : String}

theorem StoresAll.of_among (h : a.StoresAll parent first ns) (hfirst : first ≤ a.size)
    (hamong : a.Among semicolon (Node.numbers first ns) id front back) :
    ∃ ns' n ms, ns = ns' ++ n :: ms ∧ id = first + Node.sizeAll ns' ∧ a.Stores parent id n ∧
      front = Node.textBefore semicolon (n :: ms) ns' ∧
      back = (if n.needsSemicolon semicolon ms then ";" else "") ++ Node.textAll semicolon ms := by
  obtain ⟨before, behind, before', n', behind', hnumbers, hbefore, hn', hbehind, hfront, hback⟩ :=
    hamong
  obtain ⟨ns', n, ms, rfl, rfl, rfl, rfl⟩ := Node.exists_of_numbers_eq hnumbers
  rw [storesAll_append_iff, StoresAll] at h
  obtain ⟨hns, hn, hms⟩ := h
  rw [hns.node?_eq hfirst, Option.some.injEq] at hbefore
  rw [hn.node?_eq, Option.some.injEq] at hn'
  rw [hms.node?_eq hn.le_size, Option.some.injEq] at hbehind
  subst hbefore hn' hbehind
  exact ⟨ns', n, ms, rfl, rfl, hn, hfront, hback⟩

theorem StoresAll.exists_among (h : a.StoresAll parent first ns) (hfirst : first ≤ a.size)
    (semicolon : Bool) (hid : id ∈ Node.numbers first ns) :
    ∃ front back, a.Among semicolon (Node.numbers first ns) id front back := by
  obtain ⟨before, behind, hnumbers⟩ := List.append_of_mem hid
  obtain ⟨ns', n, ms, rfl, rfl, rfl, rfl⟩ := Node.exists_of_numbers_eq hnumbers
  rw [storesAll_append_iff, StoresAll] at h
  obtain ⟨hns, hn, hms⟩ := h
  exact ⟨_, _, _, _, ns', n, ms, hnumbers, hns.node?_eq hfirst, hn.node?_eq,
    hms.node?_eq hn.le_size, rfl, rfl⟩

/-! ## The arena of a tree -/

/-- Each node stands somewhere. -/
theorem exists_stands (t : Tree) (id : NodeId) (h : id < (Arena.ofTree t).size) :
    ∃ front back, (Arena.ofTree t).Stands id front back := by
  obtain ⟨container, n, hn, hlists, hcontainer⟩ := exists_stores_ofTree t h
  cases hcontainer with
  | inl htop =>
    rw [htop] at hlists
    obtain ⟨children, hchildren, hid⟩ := hlists
    rw [← Option.some.inj hchildren] at hid
    obtain ⟨front, back, hamong⟩ := (stores_ofTree t).exists_among (Nat.zero_le _) t.semicolon hid
    exact ⟨_, _, .top hamong⟩
  | inr hinside =>
    obtain ⟨c, hc, hlt⟩ := hinside
    rw [hc] at hlists
    obtain ⟨parent, source, head, ns, after, semicolon, hblock, hid⟩ := exists_block t hlists
    obtain ⟨front, back, houter⟩ := exists_stands t c (Nat.lt_trans hlt h)
    have hsize : c + 1 ≤ (Arena.ofTree t).size := hblock.lt_size
    rw [Stores] at hblock
    obtain ⟨front', back', hamong⟩ := hblock.2.exists_among hsize semicolon hid
    exact ⟨_, _, .inside houter hblock.1 hamong⟩

/-- Where a node stands, its text has its place in the text of the tree. -/
theorem Stands.exists_stores {t : Tree} (h : (Arena.ofTree t).Stands id front back) :
    ∃ parent n within, (Arena.ofTree t).Stores parent id n ∧ t.text = front ++ n.text ++ back ∧
      n.places front within <+: t.places.drop id := by
  induction h with
  | top hamong =>
    obtain ⟨ns, n, ms, hrules, rfl, hn, rfl, rfl⟩ :=
      (stores_ofTree t).of_among (Nat.zero_le _) hamong
    have hdrop := Node.drop_placesAll_append "" .rules t.semicolon ns (n :: ms)
    rw [← hrules, Node.placesAll_cons, String.empty_append] at hdrop
    refine ⟨.root, n, .rules, hn, ?_, ?_⟩
    · calc t.text
        _ = Node.textAll t.semicolon (ns ++ n :: ms) ++ t.after := by rw [Tree.text_eq, hrules]
        _ = _ := by
          rw [Node.textAll_append, Node.textAll_cons]
          simp only [String.append_assoc]
          rfl
    · rw [Nat.zero_add, Tree.places, hdrop]
      exact List.prefix_append _ _
  | @inside container id front back front' back' after parent source head children semicolon _
      hentry hamong ih =>
    obtain ⟨parent', m, within, hm, htext, hplaces⟩ := ih
    have hsize : container + 1 ≤ (Arena.ofTree t).size := hm.lt_size
    obtain ⟨kids, rfl, rfl, hkids⟩ := hm.exists_eq_block hentry
    obtain ⟨ns, n, ms, rfl, rfl, hn, rfl, rfl⟩ := hkids.of_among hsize hamong
    have hdrop := Node.drop_placesAll_append (front ++ head.addTo "" ++ "\x7b") head.body
      semicolon ns (n :: ms)
    refine ⟨.node container, n, head.body, hn, ?_, ?_⟩
    · calc t.text
        _ = front ++ (head.addTo "" ++ "\x7b" ++ Node.textAll semicolon (ns ++ n :: ms) ++
            after ++ "\x7d") ++ back := by rw [htext, Node.text_block]
        _ = _ := by
          rw [Node.textAll_append, Node.textAll_cons]
          simp only [String.append_assoc]
    · -- The block's own place is one more in front of those inside of it.
      have hinside := hplaces.drop (Node.sizeAll ns + 1)
      rw [Node.places_block, List.drop_succ_cons, hdrop, Node.placesAll_cons, List.drop_drop,
        Nat.add_comm (Node.sizeAll ns), ← Nat.add_assoc] at hinside
      exact (List.prefix_append _ _).trans hinside

/-- The text in front is that of the node's place. -/
theorem Stands.front_eq {t : Tree} {place : Place} (h : (Arena.ofTree t).Stands id front back)
    (hplace : t.places[id]? = some place) : place.front = front := by
  obtain ⟨parent, n, within, -, -, rest, hrest⟩ := h.exists_stores
  obtain ⟨first, behind, hfirst, hfront⟩ := n.exists_places_eq_cons front within
  have hhead : some first = some place := by
    calc some first
      _ = (n.places front within ++ rest).head? := by rw [hfirst, List.cons_append, List.head?_cons]
      _ = some place := by rw [hrest, List.head?_drop, hplace]
  rw [← Option.some.inj hhead, hfront]

end Arena

/-! ## Parsed texts -/

open Arena

/-- Where a node stands in the text of the tree, what is printed in front of it and what the node
itself has in front are a front of the text that was parsed. The node is recorded with the position
of the character behind, by counting. -/
theorem sources_of_parse (options : Options) (text : String) (tree : Tree)
    (h : parse options text = .ok tree) :
    let a := Arena.ofTree tree
    ∀ id < a.size, (∃ front back, a.Stands id front back) ∧
      ∀ front back, a.Stands id front back →
        ∃ entry inner rest, a.entry? id = some entry ∧ a.nodeText? id = some inner ∧
          a.text? = some (front ++ inner ++ back) ∧
          withoutMark text = front ++ entry.content.before ++ rest ∧
          entry.source.position = Position.behind (front ++ entry.content.before).toList := by
  intro a id hid
  refine ⟨exists_stands tree id hid, fun front back hstands ↦ ?_⟩
  obtain ⟨parent, n, within, hn, htext, -⟩ := hstands.exists_stores
  obtain ⟨source, content, hentry⟩ := hn.entry?
  obtain ⟨place, hplace, hsource, hopening, -⟩ := exists_place_ofTree tree hentry
  have hlead : place.lead = front ++ content.before := by
    calc place.lead
      _ = front ++ place.opening.before := by rw [Place.lead, hstands.front_eq hplace]
      _ = front ++ content.before := by rw [← hopening, Content.before_opening]
  obtain ⟨⟨rest, hrest⟩, hposition⟩ :=
    recorded_of_parse h place (List.mem_of_getElem? hplace)
  rw [hlead] at hrest hposition
  refine ⟨_, n.text, rest, hentry, ?_, ?_, hrest, ?_⟩
  · rw [nodeText?, hn.node?_eq, Option.map_some]
  · rw [text?, tree?_ofTree, Option.map_some, htext]
  · rw [hsource, hposition]

theorem sources_of_parse_second_line :
    ∃ tree, parse {} "p\x7b\n é:1;/*c*/f" = .ok tree ∧
      ∃ front back entry, (Arena.ofTree tree).Stands 3 front back ∧
        Arena.entry? (Arena.ofTree tree) 3 = some entry ∧
        entry.source.position = ⟨2, 11⟩ ∧
        Position.behind (front ++ entry.content.before).toList = ⟨2, 11⟩ := by
  have hentry : ((parse {} "p\x7b\n é:1;/*c*/f").toOption.map fun tree ↦
      ((Arena.ofTree tree).size, (Arena.entry? (Arena.ofTree tree) 3).map fun entry ↦
        entry.source.position)) = some (4, some ⟨2, 11⟩) := by decide +kernel
  obtain ⟨tree, htree, hfound⟩ := exists_of_toOption hentry
  obtain ⟨hsize, hposition⟩ := Prod.mk.inj hfound
  have hid : 3 < (Arena.ofTree tree).size := by
    rw [hsize]
    decide
  obtain ⟨⟨front, back, hstands⟩, hall⟩ := sources_of_parse {} _ tree htree 3 hid
  obtain ⟨entry, inner, rest, hthird, -, -, -, hsource⟩ := hall front back hstands
  rw [hthird, Option.map_some, Option.some.injEq] at hposition
  exact ⟨tree, htree, front, back, entry, hstands, hthird, hposition, hsource ▸ hposition⟩

end Stylesheet
