import Stylesheet.Arena.OfTree

/-!
# What the arena of a tree holds

An arena stores a node under a number if it has the node there and, under the numbers that follow,
the nodes inside of it (`Arena.Stores`). The arena of a tree stores the tree (`stores_ofTree`), and
a node that is stored is found again by its number (`Stores.expand?_eq`).

Every number of the arena is that of a node, listed by one container, which is the top or has a
smaller number (`StoresAll.exists_stores`).
-/

namespace Stylesheet

namespace Node

theorem size_pos (n : Node) : 0 < n.size := by
  cases n with
  | leaf => exact Nat.one_pos
  | block => exact Nat.succ_pos _

theorem size_le_sizeAll {n : Node} {ns : List Node} (h : n ∈ ns) : n.size ≤ sizeAll ns := by
  induction h with
  | head ns =>
    rw [sizeAll]
    exact Nat.le_add_right _ _
  | tail m _ ih =>
    rw [sizeAll]
    exact Nat.le_trans ih (Nat.le_add_left _ _)

theorem le_of_mem_numbers {first id : NodeId} {ns : List Node} (h : id ∈ numbers first ns) :
    first ≤ id := by
  induction ns generalizing first with
  | nil => exact absurd h List.not_mem_nil
  | cons n ns ih =>
    obtain rfl | hlater := List.mem_cons.mp h
    · exact Nat.le_refl _
    · exact Nat.le_of_add_right_le (ih hlater)

/-- No two siblings have the same number. -/
theorem nodup_numbers (first : NodeId) (ns : List Node) : (numbers first ns).Nodup := by
  induction ns generalizing first with
  | nil => exact List.nodup_nil
  | cons n ns ih =>
    refine List.nodup_cons.mpr ⟨fun hmem ↦ ?_, ih _⟩
    have hle := le_of_mem_numbers hmem
    exact absurd hle (Nat.not_le.mpr (Nat.lt_add_of_pos_right n.size_pos))

/-- Where a number stands among those of siblings, its node stands among the siblings. -/
theorem exists_of_numbers_eq {first id : NodeId} {ns : List Node} {front behind : List NodeId}
    (h : numbers first ns = front ++ id :: behind) :
    ∃ ns' n ms, ns = ns' ++ n :: ms ∧ front = numbers first ns' ∧ id = first + sizeAll ns' ∧
      behind = numbers (first + sizeAll ns' + n.size) ms := by
  induction front generalizing first ns with
  | nil =>
    cases ns with
    | nil => simp [numbers] at h
    | cons n ns =>
      obtain ⟨rfl, rfl⟩ := List.cons.inj h
      exact ⟨[], n, ns, rfl, rfl, rfl, rfl⟩
  | cons next front ih =>
    cases ns with
    | nil => simp [numbers] at h
    | cons m ns =>
      obtain ⟨rfl, hlater⟩ := List.cons.inj h
      obtain ⟨ns', n, ms, rfl, rfl, rfl, rfl⟩ := ih hlater
      exact ⟨m :: ns', n, ms, rfl, rfl, by simp [sizeAll, Nat.add_assoc],
        by simp [sizeAll, Nat.add_assoc]⟩

/-! ## Entries stay where they are -/

mutual

theorem getElem?_enter (entries : Array Entry) (parent : Container) (n : Node) {i : Nat}
    (h : i < entries.size) : (n.enter entries parent)[i]? = entries[i]? := by
  cases n with
  | leaf source l => rw [enter, Array.getElem?_push_lt h, Array.getElem?_eq_getElem h]
  | block source head children after semicolon =>
    have hpushed : i < (entries.push ⟨parent, source,
        .block head (numbers (entries.size + 1) children) after semicolon⟩).size := by
      rw [Array.size_push]
      exact Nat.lt_succ_of_lt h
    rw [enter, getElem?_enterAll _ _ children hpushed, Array.getElem?_push_lt h,
      Array.getElem?_eq_getElem h]

theorem getElem?_enterAll (entries : Array Entry) (parent : Container) (ns : List Node) {i : Nat}
    (h : i < entries.size) : (enterAll entries parent ns)[i]? = entries[i]? := by
  cases ns with
  | nil => rw [enterAll]
  | cons n behind =>
    have hentered : i < (n.enter entries parent).size := by
      rw [size_enter]
      omega
    rw [enterAll, getElem?_enterAll _ parent behind hentered, getElem?_enter _ parent n h]

end

end Node

namespace Arena

mutual

/-- The node has the number and is listed by the container. -/
def Stores (a : Arena) (parent : Container) (id : NodeId) : Node → Prop
  | .leaf source l => a.entry? id = some ⟨parent, source, .leaf l⟩
  | .block source head children after semicolon =>
    a.entry? id =
        some ⟨parent, source, .block head (Node.numbers (id + 1) children) after semicolon⟩ ∧
      StoresAll a (.node id) (id + 1) children

def StoresAll (a : Arena) (parent : Container) (first : NodeId) : List Node → Prop
  | [] => True
  | n :: behind => Stores a parent first n ∧ StoresAll a parent (first + n.size) behind

end

variable {a : Arena} {parent : Container} {id first : NodeId} {n : Node} {ns ms : List Node}

theorem storesAll_append_iff : a.StoresAll parent first (ns ++ ms) ↔
    a.StoresAll parent first ns ∧ a.StoresAll parent (first + Node.sizeAll ns) ms := by
  induction ns generalizing first with
  | nil => simp [StoresAll, Node.sizeAll]
  | cons n ns ih => rw [List.cons_append, StoresAll, ih, StoresAll, Node.sizeAll, and_assoc,
      Nat.add_assoc]

theorem Stores.entry? (h : a.Stores parent id n) :
    ∃ source content, a.entry? id = some ⟨parent, source, content⟩ := by
  cases n with
  | leaf source l =>
    rw [Stores] at h
    exact ⟨_, _, h⟩
  | block source head children after semicolon =>
    rw [Stores] at h
    exact ⟨_, _, h.1⟩

theorem Stores.parent? (h : a.Stores parent id n) : a.parent? id = some parent := by
  obtain ⟨source, content, hentry⟩ := h.entry?
  rw [Arena.parent?, hentry, Option.map_some]

theorem Stores.lt_size (h : a.Stores parent id n) : id < a.size := by
  obtain ⟨source, content, hentry⟩ := h.entry?
  exact (Array.getElem?_eq_some_iff.mp hentry).1

/-! ## The arena of a tree -/

mutual

theorem stores_enter (a : Arena) (entries : Array Entry) (parent : Container) (n : Node)
    (h : ∀ i < (n.enter entries parent).size, a.entry? i = (n.enter entries parent)[i]?) :
    a.Stores parent entries.size n := by
  cases n with
  | leaf source l =>
    rw [Node.enter, Array.size_push] at h
    rw [Stores, h _ (Nat.lt_succ_self _), Array.getElem?_push_size]
  | block source head children after semicolon =>
    let content := Content.block head (Node.numbers (entries.size + 1) children) after semicolon
    have hpushed : (entries.push ⟨parent, source, content⟩).size = entries.size + 1 :=
      Array.size_push _
    rw [Node.enter] at h
    rw [Stores]
    constructor
    · have hsize : entries.size < (entries.push ⟨parent, source, content⟩).size := by
        rw [hpushed]
        exact Nat.lt_succ_self _
      have hwhole : entries.size < (Node.enterAll (entries.push ⟨parent, source, content⟩)
          (.node entries.size) children).size := by
        rw [Node.size_enterAll]
        exact Nat.lt_add_right _ hsize
      rw [h _ hwhole, Node.getElem?_enterAll _ _ children hsize, Array.getElem?_push_size]
    · rw [← hpushed]
      exact stores_enterAll a _ _ children h

theorem stores_enterAll (a : Arena) (entries : Array Entry) (parent : Container) (ns : List Node)
    (h : ∀ i < (Node.enterAll entries parent ns).size,
      a.entry? i = (Node.enterAll entries parent ns)[i]?) :
    a.StoresAll parent entries.size ns := by
  cases ns with
  | nil =>
    rw [StoresAll]
    trivial
  | cons n behind =>
    rw [Node.enterAll] at h
    rw [StoresAll]
    constructor
    · refine stores_enter a entries parent n fun i hi ↦ ?_
      rw [h i (by rw [Node.size_enterAll]; omega), Node.getElem?_enterAll _ _ behind hi]
    · rw [← Node.size_enter entries parent n]
      exact stores_enterAll a _ parent behind h

end

theorem stores_ofTree (t : Tree) : (Arena.ofTree t).StoresAll .root 0 t.rules :=
  stores_enterAll (Arena.ofTree t) #[] .root t.rules fun _ _ ↦ rfl

/-! ## Finding nodes again -/

theorem exists_mapM {α β : Type} {f : α → Option β} {xs : List α}
    (h : ∀ x ∈ xs, ∃ y, f x = some y) :
    ∃ ys, xs.mapM f = some ys ∧ ∀ y ∈ ys, ∃ x ∈ xs, f x = some y := by
  induction xs with
  | nil => exact ⟨[], rfl, fun _ h ↦ nomatch h⟩
  | cons x xs ih =>
    obtain ⟨hfirst, hlater⟩ := List.forall_mem_cons.mp h
    obtain ⟨y, hy⟩ := hfirst
    obtain ⟨ys, hys, hall⟩ := ih hlater
    refine ⟨y :: ys, by simp [hy, hys], List.forall_mem_cons.mpr ⟨?_, fun z hz ↦ ?_⟩⟩
    · exact ⟨x, List.mem_cons_self, hy⟩
    · obtain ⟨w, hw, hwz⟩ := hall z hz
      exact ⟨w, List.mem_cons_of_mem _ hw, hwz⟩

theorem mapM_congr {α β : Type} {f g : α → Option β} {xs : List α} (h : ∀ x ∈ xs, f x = g x) :
    xs.mapM f = xs.mapM g := by
  induction xs with
  | nil => rfl
  | cons x xs ih =>
    obtain ⟨hfirst, hlater⟩ := List.forall_mem_cons.mp h
    rw [List.mapM_cons, List.mapM_cons, hfirst, ih hlater]

mutual

theorem Stores.expand?_eq {a : Arena} {parent : Container} {id : NodeId} {n : Node}
    (h : a.Stores parent id n) {depth : Nat} (hdepth : n.size ≤ depth) :
    a.expand? depth id = some n := by
  obtain ⟨depth, rfl⟩ := Nat.exists_eq_add_of_lt (Nat.lt_of_lt_of_le n.size_pos hdepth)
  cases n with
  | leaf source l =>
    rw [Stores] at h
    simp [expand?, h]
  | block source head children after semicolon =>
    rw [Stores] at h
    have hinside : Node.sizeAll children ≤ depth := by
      rw [Node.size] at hdepth
      omega
    have hchildren := StoresAll.expand?_eq h.2 hinside
    simp [expand?, h.1, hchildren]

theorem StoresAll.expand?_eq {a : Arena} {parent : Container} {first : NodeId} {ns : List Node}
    (h : a.StoresAll parent first ns) {depth : Nat} (hdepth : Node.sizeAll ns ≤ depth) :
    (Node.numbers first ns).mapM (a.expand? depth) = some ns := by
  cases ns with
  | nil => rfl
  | cons n behind =>
    rw [StoresAll] at h
    rw [Node.sizeAll] at hdepth
    have hfirst := Stores.expand?_eq h.1 (Nat.le_trans (Nat.le_add_right _ _) hdepth)
    have hbehind := StoresAll.expand?_eq h.2 (Nat.le_trans (Nat.le_add_left _ _) hdepth)
    simp [Node.numbers, hfirst, hbehind]

end

mutual

theorem Stores.le_size {a : Arena} {parent : Container} {id : NodeId} {n : Node}
    (h : a.Stores parent id n) : id + n.size ≤ a.size := by
  have hlt : id + 1 ≤ a.size := h.lt_size
  cases n with
  | leaf source l => exact hlt
  | block source head children after semicolon =>
    rw [Stores] at h
    have hinside := StoresAll.le_size h.2 hlt
    rwa [Node.size, Nat.add_comm (Node.sizeAll children), ← Nat.add_assoc]

theorem StoresAll.le_size {a : Arena} {parent : Container} {first : NodeId} {ns : List Node}
    (h : a.StoresAll parent first ns) (hfirst : first ≤ a.size) :
    first + Node.sizeAll ns ≤ a.size := by
  cases ns with
  | nil => exact hfirst
  | cons n behind =>
    rw [StoresAll] at h
    have hbehind := StoresAll.le_size h.2 (Stores.le_size h.1)
    rwa [Node.sizeAll, ← Nat.add_assoc]

end

theorem Stores.node?_eq (h : a.Stores parent id n) : a.node? id = some n :=
  h.expand?_eq (Nat.le_trans (Nat.le_add_left _ _) h.le_size)

theorem StoresAll.node?_eq (h : a.StoresAll parent first ns) (hfirst : first ≤ a.size) :
    (Node.numbers first ns).mapM a.node? = some ns :=
  h.expand?_eq (Nat.le_trans (Nat.le_add_left _ _) (h.le_size hfirst))

/-- The tree is found again. -/
theorem tree?_ofTree (t : Tree) : (Arena.ofTree t).tree? = some t := by
  have hrules : (Arena.ofTree t).rules.mapM (Arena.ofTree t).node? = some t.rules :=
    (stores_ofTree t).node?_eq (Nat.zero_le _)
  rw [tree?, hrules]
  rfl

mutual

/-- What holds of a node and goes on to the children of blocks holds of every node inside. -/
theorem Stores.exists_inside {P : Node → Prop}
    (hP : ∀ source head children after semicolon,
      P (.block source head children after semicolon) → ∀ n ∈ children, P n)
    {a : Arena} {parent : Container} {id : NodeId} {n : Node} (h : a.Stores parent id n) (hn : P n)
    {i : NodeId} (hle : id ≤ i) (hlt : i < id + n.size) :
    ∃ container m, a.Stores container i m ∧ P m := by
  obtain rfl | hinside := Nat.eq_or_lt_of_le hle
  · exact ⟨parent, n, h, hn⟩
  · cases n with
    | leaf source l =>
      rw [Node.size] at hlt
      exact absurd hinside (Nat.not_lt.mpr (Nat.le_of_lt_succ hlt))
    | block source head children after semicolon =>
      rw [Stores] at h
      rw [Node.size, Nat.add_comm (Node.sizeAll children), ← Nat.add_assoc] at hlt
      exact StoresAll.exists_inside hP h.2 (hP _ _ _ _ _ hn) hinside hlt

theorem StoresAll.exists_inside {P : Node → Prop}
    (hP : ∀ source head children after semicolon,
      P (.block source head children after semicolon) → ∀ n ∈ children, P n)
    {a : Arena} {parent : Container} {first : NodeId} {ns : List Node}
    (h : a.StoresAll parent first ns) (hns : ∀ n ∈ ns, P n) {i : NodeId} (hle : first ≤ i)
    (hlt : i < first + Node.sizeAll ns) : ∃ container m, a.Stores container i m ∧ P m := by
  cases ns with
  | nil => exact absurd hle (Nat.not_le.mpr hlt)
  | cons n behind =>
    rw [StoresAll] at h
    rw [Node.sizeAll, ← Nat.add_assoc] at hlt
    obtain ⟨hfirst, hbehind⟩ := List.forall_mem_cons.mp hns
    by_cases hinside : i < first + n.size
    · exact Stores.exists_inside hP h.1 hfirst hle hinside
    · exact StoresAll.exists_inside hP h.2 hbehind (Nat.not_lt.mp hinside) hlt

end

theorem exists_inside_ofTree {P : Node → Prop}
    (hP : ∀ source head children after semicolon,
      P (.block source head children after semicolon) → ∀ n ∈ children, P n)
    {t : Tree} (hrules : ∀ n ∈ t.rules, P n) {id : NodeId} (h : id < (Arena.ofTree t).size) :
    ∃ container m, (Arena.ofTree t).Stores container id m ∧ P m := by
  rw [size_ofTree, Tree.size, ← Nat.zero_add (Node.sizeAll _)] at h
  exact (stores_ofTree t).exists_inside hP hrules (Nat.zero_le id) h

/-! ## Containers -/

/-- The number is among those of the container's children. -/
def Lists (a : Arena) (container : Container) (id : NodeId) : Prop :=
  ∃ children, a.children? container = some children ∧ id ∈ children

theorem Stores.children? {source : Source} {head : Head} {children : List Node} {after : String}
    {semicolon : Bool} (h : a.Stores parent id (.block source head children after semicolon)) :
    a.children? (.node id) = some (Node.numbers (id + 1) children) := by
  rw [Stores] at h
  rw [Arena.children?, h.1]
  rfl

theorem Stores.exists_eq_block {container : Container} {source : Source} {head : Head}
    {children : List NodeId} {after : String} {semicolon : Bool} (h : a.Stores parent id n)
    (hentry : a.entry? id = some ⟨container, source, .block head children after semicolon⟩) :
    ∃ ns, n = .block source head ns after semicolon ∧ children = Node.numbers (id + 1) ns ∧
      a.StoresAll (.node id) (id + 1) ns := by
  cases n with
  | leaf source' l =>
    rw [Stores, hentry] at h
    simp at h
  | block source' head' ns after' semicolon' =>
    rw [Stores, hentry, Option.some.injEq] at h
    obtain ⟨hsame, hns⟩ := h
    injection hsame with _ hsource hcontent
    injection hcontent with hhead hchildren hafter hsemicolon
    rw [hsource, hhead, hafter, hsemicolon]
    exact ⟨ns, rfl, hchildren, hns⟩

theorem StoresAll.exists_of_mem (h : a.StoresAll parent first ns)
    (hid : id ∈ Node.numbers first ns) : ∃ n ∈ ns, a.Stores parent id n := by
  obtain ⟨front, behind, hnumbers⟩ := List.append_of_mem hid
  obtain ⟨ns', n, ms, rfl, -, rfl, -⟩ := Node.exists_of_numbers_eq hnumbers
  rw [storesAll_append_iff, StoresAll] at h
  exact ⟨n, List.mem_append_right _ List.mem_cons_self, h.2.1⟩

mutual

/-- From the number of a node on there are the numbers of the nodes inside of it. -/
theorem Stores.exists_stores {a : Arena} {parent : Container} {id : NodeId} {n : Node}
    (h : a.Stores parent id n) (hlists : a.Lists parent id) {i : NodeId} (hle : id ≤ i)
    (hlt : i < id + n.size) :
    ∃ container m, a.Stores container i m ∧ a.Lists container i ∧
      (container = parent ∨ ∃ c, container = .node c ∧ c < i) := by
  obtain rfl | hinside := Nat.eq_or_lt_of_le hle
  · exact ⟨parent, n, h, hlists, .inl rfl⟩
  · cases n with
    | leaf source l =>
      rw [Node.size] at hlt
      exact absurd hinside (Nat.not_lt.mpr (Nat.le_of_lt_succ hlt))
    | block source head children after semicolon =>
      have hchildren := h.children?
      rw [Stores] at h
      rw [Node.size, Nat.add_comm (Node.sizeAll children), ← Nat.add_assoc] at hlt
      obtain ⟨container, m, hm, hlisted, hcontainer⟩ := StoresAll.exists_stores h.2
        (fun next hnext ↦ ⟨_, hchildren, hnext⟩) hinside hlt
      refine ⟨container, m, hm, hlisted, .inr ?_⟩
      cases hcontainer with
      | inl hsame => exact ⟨id, hsame, hinside⟩
      | inr hdeeper => exact hdeeper

/-- The numbers from the first of siblings on are those of the siblings and of the nodes inside of
them. -/
theorem StoresAll.exists_stores {a : Arena} {parent : Container} {first : NodeId}
    {ns : List Node} (h : a.StoresAll parent first ns)
    (hlists : ∀ id ∈ Node.numbers first ns, a.Lists parent id) {i : NodeId} (hle : first ≤ i)
    (hlt : i < first + Node.sizeAll ns) :
    ∃ container m, a.Stores container i m ∧ a.Lists container i ∧
      (container = parent ∨ ∃ c, container = .node c ∧ c < i) := by
  cases ns with
  | nil => exact absurd hle (Nat.not_le.mpr hlt)
  | cons n behind =>
    rw [StoresAll] at h
    rw [Node.sizeAll, ← Nat.add_assoc] at hlt
    obtain ⟨hfirst, hbehind⟩ := List.forall_mem_cons.mp hlists
    by_cases hinside : i < first + n.size
    · exact Stores.exists_stores h.1 hfirst hle hinside
    · exact StoresAll.exists_stores h.2 hbehind (Nat.not_lt.mp hinside) hlt

end

/-- Every number of the arena is that of a node, which is listed where its parent says. -/
theorem exists_stores_ofTree (t : Tree) {id : NodeId} (h : id < (Arena.ofTree t).size) :
    ∃ container n, (Arena.ofTree t).Stores container id n ∧ (Arena.ofTree t).Lists container id ∧
      (container = .root ∨ ∃ c, container = .node c ∧ c < id) := by
  have hsize : id < 0 + Node.sizeAll t.rules := by
    rw [size_ofTree] at h
    rwa [Nat.zero_add]
  exact (stores_ofTree t).exists_stores (fun next hnext ↦ ⟨_, rfl, hnext⟩) (Nat.zero_le id) hsize

/-- A node that lists others is a block. -/
theorem exists_block (t : Tree) {c id : NodeId} (h : (Arena.ofTree t).Lists (.node c) id) :
    ∃ parent source head ns after semicolon,
      (Arena.ofTree t).Stores parent c (.block source head ns after semicolon) ∧
        id ∈ Node.numbers (c + 1) ns := by
  obtain ⟨children, hchildren, hid⟩ := h
  obtain ⟨entry, hentry, rfl⟩ := Option.map_eq_some_iff.mp hchildren
  have hsize : c < (Arena.ofTree t).size := (Array.getElem?_eq_some_iff.mp hentry).1
  obtain ⟨parent, n, hn, -, -⟩ := exists_stores_ofTree t hsize
  cases n with
  | leaf source l =>
    rw [Stores, hentry, Option.some.injEq] at hn
    rw [hn] at hid
    exact absurd hid List.not_mem_nil
  | block source head ns after semicolon =>
    have hsame := hn.children?
    rw [hchildren, Option.some.injEq] at hsame
    exact ⟨parent, source, head, ns, after, semicolon, hn, hsame ▸ hid⟩

/-- The children of a container are siblings that are stored. -/
theorem exists_siblings (t : Tree) {container : Container} {children : List NodeId}
    (h : (Arena.ofTree t).children? container = some children) :
    ∃ first ns, children = Node.numbers first ns ∧
      (Arena.ofTree t).StoresAll container first ns := by
  cases container with
  | root => exact ⟨0, t.rules, (Option.some.inj h).symm, stores_ofTree t⟩
  | node c =>
    obtain ⟨entry, hentry, rfl⟩ := Option.map_eq_some_iff.mp h
    have hsize : c < (Arena.ofTree t).size := (Array.getElem?_eq_some_iff.mp hentry).1
    obtain ⟨parent, n, hn, -, -⟩ := exists_stores_ofTree t hsize
    cases n with
    | leaf source l =>
      rw [Stores, hentry, Option.some.injEq] at hn
      rw [hn]
      exact ⟨0, [], rfl, by rw [StoresAll]; trivial⟩
    | block source head ns after semicolon =>
      rw [Stores, hentry, Option.some.injEq] at hn
      rw [hn.1]
      exact ⟨c + 1, ns, rfl, hn.2⟩

theorem lists_iff_parent? (t : Tree) (container : Container) (id : NodeId) :
    (Arena.ofTree t).Lists container id ↔ (Arena.ofTree t).parent? id = some container := by
  constructor
  · rintro ⟨children, hchildren, hid⟩
    obtain ⟨first, ns, rfl, hns⟩ := exists_siblings t hchildren
    obtain ⟨n, -, hn⟩ := hns.exists_of_mem hid
    exact hn.parent?
  · intro hparent
    obtain ⟨entry, hentry, -⟩ := Option.map_eq_some_iff.mp hparent
    have hsize : id < (Arena.ofTree t).size := (Array.getElem?_eq_some_iff.mp hentry).1
    obtain ⟨listing, n, hn, hlists, -⟩ := exists_stores_ofTree t hsize
    rw [hn.parent?, Option.some.injEq] at hparent
    rwa [← hparent]

/-- A container lists the nodes whose parent it is, each of them once. -/
theorem count_children (t : Tree) {container : Container} {children : List NodeId}
    (h : (Arena.ofTree t).children? container = some children) (id : NodeId) :
    children.count id = if (Arena.ofTree t).parent? id = some container then 1 else 0 := by
  have hmem : id ∈ children ↔ (Arena.ofTree t).parent? id = some container := by
    rw [← lists_iff_parent?, Lists, h]
    simp
  have hnodup : children.Nodup := by
    obtain ⟨first, ns, rfl, -⟩ := exists_siblings t h
    exact Node.nodup_numbers first ns
  rw [hnodup.count]
  simp only [hmem]

end Arena

end Stylesheet
