import Stylesheet.Proofs.Arena.Stored
import Stylesheet.Proofs.Parse.Recorded

/-!
# The order of an arena

The arena of a parsed text is a tree, and its numbers follow the text (`ordered_of_parse`). What is
known of the places in the tree goes over to the entries: the arena has them under their numbers
(`Arena.hasAll_ofTree`). So a node has the number of the nodes that the parse has made before it
(`Arena.hasAll_reached`).
-/

namespace Stylesheet

namespace Content

def opening : Content → Opening
  | leaf l => .leaf l
  | block head .. => .block head

theorem kind_opening (content : Content) : content.opening.kind = content.kind := by
  cases content <;> rfl

theorem before_opening (content : Content) : content.opening.before = content.before := by
  cases content <;> rfl

/-- What a block may hold. -/
def body? : Content → Option BodyKind
  | leaf _ => none
  | block head .. => some head.body

end Content

namespace Arena

/-- What the container may hold. There are only rules at the top. -/
def body? (a : Arena) : Container → Option BodyKind
  | .root => some .rules
  | .node id => (a.entry? id).bind fun entry ↦ entry.content.body?

/-! ## Places -/

/-- The node with the number has the place. -/
def Has (a : Arena) (id : NodeId) (place : Place) : Prop :=
  ∃ entry, a.entry? id = some entry ∧ entry.source = place.source ∧
    entry.content.opening = place.opening ∧ a.body? entry.parent = some place.within

/-- The nodes from the first number on have the places. -/
def HasAll (a : Arena) (first : NodeId) : List Place → Prop
  | [] => True
  | place :: behind => a.Has first place ∧ HasAll a (first + 1) behind

variable {a : Arena} {parent : Container} {id first : NodeId} {n : Node} {ns : List Node}
variable {places places' : List Place} {within : BodyKind}

theorem hasAll_append_iff : a.HasAll first (places ++ places') ↔
    a.HasAll first places ∧ a.HasAll (first + places.length) places' := by
  induction places generalizing first with
  | nil => simp [HasAll]
  | cons place places ih =>
    have hlength : first + (place :: places).length = first + 1 + places.length := by
      rw [List.length_cons, Nat.add_assoc, Nat.add_comm 1]
    rw [List.cons_append, HasAll, ih, HasAll, and_assoc, hlength]

theorem HasAll.has (h : a.HasAll first places) {i : Nat} {place : Place}
    (hplace : places[i]? = some place) : a.Has (first + i) place := by
  obtain ⟨hlt, rfl⟩ := List.getElem?_eq_some_iff.mp hplace
  have hsplit : places = places.take i ++ places[i] :: places.drop (i + 1) := by simp
  rw [hsplit, hasAll_append_iff, HasAll, List.length_take_of_le (Nat.le_of_lt hlt)] at h
  exact h.2.1

mutual

theorem Stores.hasAll {a : Arena} {parent : Container} {id : NodeId} {n : Node}
    (h : a.Stores parent id n) (front : String) {within : BodyKind}
    (hbody : a.body? parent = some within) : a.HasAll id (n.places front within) := by
  cases n with
  | leaf source l =>
    rw [Stores] at h
    rw [Node.places_leaf, HasAll, HasAll]
    exact ⟨⟨_, h, rfl, rfl, hbody⟩, trivial⟩
  | block source head children after semicolon =>
    rw [Stores] at h
    have hinside : a.body? (.node id) = some head.body := by
      rw [body?, h.1]
      rfl
    rw [Node.places_block, HasAll]
    exact ⟨⟨_, h.1, rfl, rfl, hbody⟩, StoresAll.hasAll h.2 _ semicolon hinside⟩

theorem StoresAll.hasAll {a : Arena} {parent : Container} {first : NodeId} {ns : List Node}
    (h : a.StoresAll parent first ns) (front : String) (semicolon : Bool) {within : BodyKind}
    (hbody : a.body? parent = some within) :
    a.HasAll first (Node.placesAll front within semicolon ns) := by
  cases ns with
  | nil =>
    rw [Node.placesAll_nil, HasAll]
    trivial
  | cons n behind =>
    rw [StoresAll] at h
    rw [Node.placesAll_cons, hasAll_append_iff, Node.length_places]
    exact ⟨Stores.hasAll h.1 front hbody, StoresAll.hasAll h.2 _ semicolon hbody⟩

end

theorem hasAll_ofTree (t : Tree) : (Arena.ofTree t).HasAll 0 t.places :=
  (stores_ofTree t).hasAll "" t.semicolon rfl

/-- Each number of the arena of a tree is that of a place. -/
theorem exists_place_ofTree (t : Tree) {id : NodeId} {entry : Entry}
    (h : Arena.entry? (Arena.ofTree t) id = some entry) :
    ∃ place, t.places[id]? = some place ∧ entry.source = place.source ∧
      entry.content.opening = place.opening ∧
        (Arena.ofTree t).body? entry.parent = some place.within := by
  have hsize : id < t.places.length := by
    rw [t.length_places, ← size_ofTree]
    exact (Array.getElem?_eq_some_iff.mp h).1
  have hplace : t.places[id]? = some t.places[id] := List.getElem?_eq_getElem hsize
  obtain ⟨entry', hentry', hsource, hopening, hbody⟩ := (hasAll_ofTree t).has hplace
  rw [Nat.zero_add, h, Option.some.injEq] at hentry'
  subst hentry'
  exact ⟨_, hplace, hsource, hopening, hbody⟩

/-! ## Visiting the nodes -/

/-- Going through the numbers, and from each of them through its children before the next, ends and
has come to `visited` in this order. -/
inductive Visits (a : Arena) : (ids visited : List NodeId) → Prop
  | nil : Visits a [] []
  | cons {id : NodeId} {behind inside visited : List NodeId} {entry : Entry}
      (entry_eq : a.entry? id = some entry) (inner : Visits a entry.content.children inside)
      (outer : Visits a behind visited) : Visits a (id :: behind) (id :: (inside ++ visited))

theorem Visits.unique {ids visited visited' : List NodeId} (h : a.Visits ids visited)
    (h' : a.Visits ids visited') : visited = visited' := by
  induction h generalizing visited' with
  | nil =>
    cases h'
    rfl
  | cons hentry _ _ inner outer =>
    cases h' with
    | cons hentry' hinner houter =>
      rw [hentry, Option.some.injEq] at hentry'
      subst hentry'
      rw [inner hinner, outer houter]

mutual

theorem Stores.visits {a : Arena} {parent : Container} {id : NodeId} {n : Node}
    (h : a.Stores parent id n) {behind visited : List NodeId} (hbehind : a.Visits behind visited) :
    a.Visits (id :: behind) (List.range' id n.size ++ visited) := by
  cases n with
  | leaf source l =>
    rw [Stores] at h
    exact .cons h .nil hbehind
  | block source head children after semicolon =>
    rw [Stores] at h
    rw [Node.size, List.range'_succ, List.cons_append]
    exact .cons h.1 (StoresAll.visits h.2) hbehind

theorem StoresAll.visits {a : Arena} {parent : Container} {first : NodeId} {ns : List Node}
    (h : a.StoresAll parent first ns) :
    a.Visits (Node.numbers first ns) (List.range' first (Node.sizeAll ns)) := by
  cases ns with
  | nil => exact .nil
  | cons n behind =>
    rw [StoresAll] at h
    rw [Node.numbers, Node.sizeAll, ← List.range'_append_1]
    exact Stores.visits h.1 (StoresAll.visits h.2)

end

theorem visits_ofTree (t : Tree) :
    (Arena.ofTree t).Visits (Arena.ofTree t).rules (Arena.ofTree t).descendants := by
  have hvisits := (stores_ofTree t).visits
  rwa [descendants, size_ofTree, Tree.size, List.range_eq_range']

/-! ## Parsed texts -/

/-- The arena is a tree in the order of the text, and its nodes suit the containers they are in. -/
structure Ordered (a : Arena) : Prop where
  /-- Each node in front of its children, the nodes are visited in the order of their numbers. -/
  visited : ∀ ids, a.Visits a.rules ids ↔ ids = a.descendants
  /-- A node is listed by its parent, once, and by no other container. -/
  listed : ∀ container children, a.children? container = some children →
    ∀ id, children.count id = if a.parent? id = some container then 1 else 0
  parent : ∀ id < a.size, ∃ container children,
    a.parent? id = some container ∧ a.children? container = some children
  position : ∀ i j entry entry', i < j → a.entry? i = some entry → a.entry? j = some entry' →
    compare entry.source.position entry'.source.position = .lt
  kind : ∀ container body children, a.body? container = some body →
    a.children? container = some children → ∀ id ∈ children,
      ∃ entry, a.entry? id = some entry ∧ entry.content.kind ∈ body.kinds
  named : ∀ id entry, a.entry? id = some entry → entry.content.opening.Named

variable {options : Options} {text : String} {tree : Tree}

theorem suits_entry_of_parse (h : parse options text = .ok tree) {id : NodeId} {entry : Entry}
    (hentry : Arena.entry? (Arena.ofTree tree) id = some entry) :
    ∃ within, (Arena.ofTree tree).body? entry.parent = some within ∧
      entry.content.opening.Suits within := by
  obtain ⟨place, hplace, -, hopening, hbody⟩ := exists_place_ofTree tree hentry
  refine ⟨place.within, hbody, ?_⟩
  rw [hopening]
  exact suits_of_parse h place (List.mem_of_getElem? hplace)

theorem position_lt_of_parse (h : parse options text = .ok tree) {i j : NodeId} (hij : i < j)
    {entry entry' : Entry} (hentry : Arena.entry? (Arena.ofTree tree) i = some entry)
    (hentry' : Arena.entry? (Arena.ofTree tree) j = some entry') :
    compare entry.source.position entry'.source.position = .lt := by
  obtain ⟨place, hplace, hsource, -⟩ := exists_place_ofTree tree hentry
  obtain ⟨place', hplace', hsource', -⟩ := exists_place_ofTree tree hentry'
  obtain ⟨hi, rfl⟩ := List.getElem?_eq_some_iff.mp hplace
  obtain ⟨hj, rfl⟩ := List.getElem?_eq_some_iff.mp hplace'
  rw [hsource, hsource']
  exact List.pairwise_iff_getElem.mp (pairwise_of_parse h) i j hi hj hij

theorem kind_mem_of_parse (h : parse options text = .ok tree) {container : Container}
    {body : BodyKind} {children : List NodeId}
    (hbody : (Arena.ofTree tree).body? container = some body)
    (hchildren : (Arena.ofTree tree).children? container = some children) {id : NodeId}
    (hid : id ∈ children) :
    ∃ entry, Arena.entry? (Arena.ofTree tree) id = some entry ∧
      entry.content.kind ∈ body.kinds := by
  have hparent := (lists_iff_parent? tree container id).mp ⟨children, hchildren, hid⟩
  obtain ⟨entry, hentry, rfl⟩ := Option.map_eq_some_iff.mp hparent
  obtain ⟨within, hwithin, hkind, -⟩ := suits_entry_of_parse h hentry
  rw [hbody, Option.some.injEq] at hwithin
  rw [← hwithin, Content.kind_opening] at hkind
  exact ⟨entry, hentry, hkind⟩

/-- Nodes get the next number when they are made. -/
theorem hasAll_reached (h : parse options text = .ok tree) {front : List Token}
    (hfront : front <+: tokenize text) :
    (Arena.ofTree tree).HasAll 0 (Parse.reached options.context front).places := by
  have hall := hasAll_ofTree tree
  obtain ⟨later, hplaces⟩ := prefix_of_parse h hfront
  rw [← hplaces, hasAll_append_iff] at hall
  exact hall.1

end Arena

open Arena

/-- In the arena of a parsed text the nodes are numbered as they come in the text, each in front of
those inside of it. These are the numbers in which they have been made: whatever the first tokens
have made is under the first numbers. -/
theorem ordered_of_parse (options : Options) (text : String) (tree : Tree)
    (h : parse options text = .ok tree) :
    (Arena.ofTree tree).Ordered ∧ ∀ front, front <+: tokenize text →
      (Arena.ofTree tree).HasAll 0 (Parse.reached options.context front).places := by
  refine ⟨⟨fun ids ↦ ⟨?_, ?_⟩, ?_, ?_, ?_, ?_, ?_⟩, fun _ hfront ↦ hasAll_reached h hfront⟩
  · exact fun hids ↦ hids.unique (visits_ofTree tree)
  · intro hids
    rw [hids]
    exact visits_ofTree tree
  · exact fun _ _ hchildren ↦ count_children tree hchildren
  · intro id hid
    obtain ⟨container, n, hn, ⟨children, hchildren, -⟩, -⟩ := exists_stores_ofTree tree hid
    exact ⟨container, children, hn.parent?, hchildren⟩
  · exact fun _ _ _ _ hij hentry hentry' ↦ position_lt_of_parse h hij hentry hentry'
  · exact fun _ _ _ hbody hchildren _ hid ↦ kind_mem_of_parse h hbody hchildren hid
  · intro id entry hentry
    obtain ⟨within, -, hsuits⟩ := suits_entry_of_parse h hentry
    exact hsuits.named

theorem ordered_of_parse_nested :
    ∃ tree, parse {} "@media p\x7b/*x*/a\x7bb:c" = .ok tree ∧
      (Arena.ofTree tree).size = 4 ∧ (Arena.ofTree tree).Ordered := by
  have hsize : ((parse {} "@media p\x7b/*x*/a\x7bb:c").toOption.map fun tree ↦
      (Arena.ofTree tree).size) = some 4 := by decide +kernel
  obtain ⟨tree, htree, hfour⟩ := exists_of_toOption hsize
  exact ⟨tree, htree, hfour, (ordered_of_parse {} _ tree htree).1⟩

end Stylesheet
