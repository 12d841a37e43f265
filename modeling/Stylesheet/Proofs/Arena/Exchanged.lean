import Stylesheet.Arena.Edit
import Stylesheet.Proofs.Arena.Stored

/-!
# One block exchanged

A block that lists other children is the only node of the tree that changes
(`Arena.exists_tree?_setChildren?`). What it lists is found as before: the children of a block have
higher numbers than the block, and so have the nodes inside of them.
-/

namespace Stylesheet

/-- The nodes are the same but for one node inside, or the node itself. -/
inductive Node.Exchanged (old new : Node) : Node → Node → Prop
  | here : Exchanged old new old new
  | inside {source : Source} {head : Head} {front behind : List Node} {n m : Node} {after : String}
      {semicolon : Bool} (h : Exchanged old new n m) :
    Exchanged old new (.block source head (front ++ n :: behind) after semicolon)
      (.block source head (front ++ m :: behind) after semicolon)

/-- The trees are the same but for one node. -/
def Tree.Exchanged (old new : Node) (t u : Tree) : Prop :=
  ∃ front n m behind, t.rules = front ++ n :: behind ∧ Node.Exchanged old new n m ∧
    u = { t with rules := front ++ m :: behind }

namespace Arena

variable {a b : Arena} {parent : Container} {c id first : Nat} {n old new : Node}
variable {ns : List Node}

/-! ## What is changed and what is not -/

mutual

/-- A node is found where the entries are those of the node. -/
theorem Stores.of_entries {a b : Arena} {parent : Container} {id : Nat} {n : Node}
    (h : a.Stores parent id n)
    (hentries : ∀ i : Nat, id ≤ i → i < id + n.size → b.entry? i = a.entry? i) :
    b.Stores parent id n := by
  have hfirst := hentries id (Nat.le_refl id) (Nat.lt_add_of_pos_right n.size_pos)
  cases n with
  | leaf source l =>
    rw [Stores] at h ⊢
    rw [hfirst, h]
  | block source head children after semicolon =>
    rw [Stores] at h ⊢
    refine ⟨hfirst.trans h.1, StoresAll.of_entries h.2 fun i hle hlt ↦ hentries i ?_ ?_⟩
    · exact Nat.le_of_succ_le hle
    · rw [Node.size]
      omega

theorem StoresAll.of_entries {a b : Arena} {parent : Container} {first : Nat} {ns : List Node}
    (h : a.StoresAll parent first ns)
    (hentries : ∀ i : Nat, first ≤ i → i < first + Node.sizeAll ns → b.entry? i = a.entry? i) :
    b.StoresAll parent first ns := by
  cases ns with
  | nil =>
    rw [StoresAll]
    trivial
  | cons n behind =>
    rw [StoresAll] at h ⊢
    rw [Node.sizeAll] at hentries
    refine ⟨Stores.of_entries h.1 fun i hle hlt ↦ hentries i hle ?_,
      StoresAll.of_entries h.2 fun i hle hlt ↦ hentries i ?_ ?_⟩
    all_goals omega

end

/-- Siblings that are listed in another way are found if all of them are found in both arenas. -/
theorem StoresAll.exists_listed {ids : List NodeId} (h : a.StoresAll parent first ns)
    (hentries : ∀ i : Nat, first ≤ i → b.entry? i = a.entry? i)
    (hids : ∀ id ∈ ids, id ∈ Node.numbers first ns) :
    ∃ ms, ids.mapM a.node? = some ms ∧ (∀ m ∈ ms, m ∈ ns) ∧
      ∀ depth, Node.sizeAll ns ≤ depth → ids.mapM (b.expand? depth) = some ms := by
  have hfound (id : NodeId) (hid : id ∈ ids) : ∃ n, a.node? id = some n ∧ n ∈ ns ∧
      ∀ depth, Node.sizeAll ns ≤ depth → b.expand? depth id = some n := by
    obtain ⟨n, hn, hstores⟩ := h.exists_of_mem (hids id hid)
    have hfirst := Node.le_of_mem_numbers (hids id hid)
    have hsame := hstores.of_entries fun i hi _ ↦ hentries i (Nat.le_trans hfirst hi)
    exact ⟨n, hstores.node?_eq, hn, fun depth hdepth ↦
      hsame.expand?_eq (Nat.le_trans (Node.size_le_sizeAll hn) hdepth)⟩
  obtain ⟨ms, hms, hlisted⟩ := exists_mapM fun id hid ↦ (hfound id hid).imp fun _ ↦ And.left
  refine ⟨ms, hms, fun m hm ↦ ?_, fun depth hdepth ↦ ?_⟩
  · obtain ⟨id, hid, hnode⟩ := hlisted m hm
    obtain ⟨n, hn, hmem, -⟩ := hfound id hid
    exact Option.some.inj (hnode.symm.trans hn) ▸ hmem
  · rw [← hms]
    refine mapM_congr fun id hid ↦ ?_
    obtain ⟨n, hn, -, hexpand⟩ := hfound id hid
    rw [hn, hexpand depth hdepth]

/-- The second arena has another node under the number and is the same elsewhere. -/
structure Exchanges (a b : Arena) (c : Nat) (old new : Node) : Prop where
  entries : ∀ i : Nat, i ≠ c → b.entry? i = a.entry? i
  node?_old : a.node? c = some old
  expand?_new : ∀ depth, old.size ≤ depth → b.expand? depth c = some new

mutual

/-- Where one entry differs, the node differs where it has that number inside. -/
theorem Stores.exists_exchanged {a b : Arena} {c : Nat} {old new : Node} {parent : Container}
    {id : Nat} {n : Node} (hb : a.Exchanges b c old new) (h : a.Stores parent id n)
    (hle : id ≤ c) (hlt : c < id + n.size) :
    ∃ m, Node.Exchanged old new n m ∧ ∀ depth, n.size ≤ depth → b.expand? depth id = some m := by
  obtain rfl | hinside := Nat.eq_or_lt_of_le hle
  · obtain rfl : n = old := Option.some.inj (h.node?_eq.symm.trans hb.node?_old)
    exact ⟨new, .here, hb.expand?_new⟩
  · cases n with
    | leaf source l =>
      rw [Node.size] at hlt
      exact absurd hinside (Nat.not_lt.mpr (Nat.le_of_lt_succ hlt))
    | block source head children after semicolon =>
      rw [Stores] at h
      rw [Node.size, Nat.add_comm (Node.sizeAll children), ← Nat.add_assoc] at hlt
      obtain ⟨front, n, m, behind, rfl, hexchanged, hexpand⟩ :=
        StoresAll.exists_exchanged hb h.2 hinside hlt
      refine ⟨_, .inside hexchanged, fun depth hdepth ↦ ?_⟩
      obtain ⟨depth, rfl⟩ := Nat.exists_eq_add_of_lt (Nat.lt_of_lt_of_le (Node.size_pos _) hdepth)
      rw [Node.size] at hdepth
      have hchildren := hexpand depth (by omega)
      simp [expand?, hb.entries id (Nat.ne_of_lt hinside), h.1, hchildren]

theorem StoresAll.exists_exchanged {a b : Arena} {c : Nat} {old new : Node} {parent : Container}
    {first : Nat} {ns : List Node} (hb : a.Exchanges b c old new)
    (h : a.StoresAll parent first ns) (hle : first ≤ c) (hlt : c < first + Node.sizeAll ns) :
    ∃ front n m behind, ns = front ++ n :: behind ∧ Node.Exchanged old new n m ∧
      ∀ depth, Node.sizeAll ns ≤ depth →
        (Node.numbers first ns).mapM (b.expand? depth) = some (front ++ m :: behind) := by
  cases ns with
  | nil => exact absurd hle (Nat.not_le.mpr hlt)
  | cons n ns =>
    rw [StoresAll] at h
    rw [Node.sizeAll, ← Nat.add_assoc] at hlt
    by_cases hinside : c < first + n.size
    · obtain ⟨m, hexchanged, hexpand⟩ := Stores.exists_exchanged hb h.1 hle hinside
      have hrest := h.2.of_entries fun i hi _ ↦ hb.entries i (by omega)
      refine ⟨[], n, m, ns, rfl, hexchanged, fun depth hdepth ↦ ?_⟩
      rw [Node.sizeAll] at hdepth
      have hfirst := hexpand depth (by omega)
      have hbehind : _ = some ns := hrest.expand?_eq (Nat.le_of_add_left_le hdepth)
      simp [Node.numbers, hfirst, hbehind]
    · obtain ⟨front, n', m, behind, rfl, hexchanged, hexpand⟩ :=
        StoresAll.exists_exchanged hb h.2 (Nat.not_lt.mp hinside) hlt
      have hsame := h.1.of_entries fun i _ hi ↦ hb.entries i (by omega)
      refine ⟨n :: front, n', m, behind, rfl, hexchanged, fun depth hdepth ↦ ?_⟩
      rw [Node.sizeAll] at hdepth
      have hfirst : _ = some n := hsame.expand?_eq (Nat.le_of_add_right_le hdepth)
      have hbehind := hexpand depth (by omega)
      simp [Node.numbers, hfirst, hbehind]

end

/-! ## A block with other children -/

theorem setChildren?_of_entry? {source : Source} {head : Head} {children ids : List NodeId}
    {after : String} {semicolon : Bool}
    (hentry : a.entry? c = some ⟨parent, source, .block head children after semicolon⟩)
    (hids : ∀ id ∈ ids, id < a.size) :
    a.setChildren? ids (.node c) = some { a with
      entries := a.entries.setIfInBounds c ⟨parent, source, .block head ids after semicolon⟩ } := by
  have hall : ids.all a.has = true :=
    List.all_eq_true.mpr fun id hid ↦ decide_eq_true (hids id hid)
  rw [setChildren?, if_pos hall]
  simp [updateContent?, update?, hentry, Content.setChildren?]

/-- The node that a block is with some of its children, in any order. -/
theorem Stores.exists_exchanges {container : Container} {source : Source} {head : Head}
    {kids : List Node} {ids : List NodeId} {after : String} {semicolon : Bool}
    (h : a.Stores container c (.block source head kids after semicolon))
    (hids : ∀ id ∈ ids, id ∈ Node.numbers (c + 1) kids) :
    ∃ ns, ids.mapM a.node? = some ns ∧ (∀ n ∈ ns, n ∈ kids) ∧
      a.Exchanges
        { a with
          entries := a.entries.setIfInBounds c ⟨parent, source, .block head ids after semicolon⟩ }
        c (.block source head kids after semicolon) (.block source head ns after semicolon) := by
  generalize hb : ({ a with entries := _ } : Arena) = b
  have hnew : b.entry? c = some ⟨parent, source, .block head ids after semicolon⟩ := by
    rw [← hb]
    exact Array.getElem?_setIfInBounds_self_of_lt h.lt_size
  have hentries (i : Nat) (hi : i ≠ c) : b.entry? i = a.entry? i := by
    rw [← hb]
    exact Array.getElem?_setIfInBounds_ne hi.symm
  have hnode := h.node?_eq
  rw [Stores] at h
  obtain ⟨ns, hns, hmem, hexpand⟩ :=
    h.2.exists_listed (fun i hi ↦ hentries i (Nat.ne_of_gt hi)) hids
  refine ⟨ns, hns, hmem, hentries, hnode, fun depth hdepth ↦ ?_⟩
  obtain ⟨depth, rfl⟩ := Nat.exists_eq_add_of_lt (Nat.lt_of_lt_of_le (Node.size_pos _) hdepth)
  rw [Node.size] at hdepth
  have hchildren := hexpand depth (by omega)
  simp [expand?, hnew, hchildren]

/-- The tree is changed where the node stands in it. -/
theorem Exchanges.exists_tree? {t : Tree} {entries : Array Entry}
    (h : (Arena.ofTree t).Exchanges { Arena.ofTree t with entries } c old new)
    (hsize : entries.size = (Arena.ofTree t).size) (hc : c < (Arena.ofTree t).size) :
    ∃ edited, Arena.tree? { Arena.ofTree t with entries } = some edited ∧
      t.Exchanged old new edited := by
  rw [size_ofTree] at hsize hc
  have hwhole : c < 0 + Node.sizeAll t.rules := by rwa [Nat.zero_add]
  obtain ⟨front, n, m, behind, hrules, hexchanged, hexpand⟩ :=
    (stores_ofTree t).exists_exchanged h (Nat.zero_le c) hwhole
  refine ⟨{ t with rules := front ++ m :: behind }, ?_, front, n, m, behind, hrules, hexchanged,
    rfl⟩
  have htop : (Arena.ofTree t).rules.mapM (Arena.node? { Arena.ofTree t with entries }) =
      some (front ++ m :: behind) := hexpand entries.size (Nat.le_of_eq hsize.symm)
  rw [tree?, htop]
  rfl

/-- A block that lists some of its children, in another order and again if asked for, is the only
node that is changed. -/
theorem exists_tree?_setChildren? (t : Tree) {source : Source} {head : Head}
    {children ids : List NodeId} {after : String} {semicolon : Bool}
    (hentry : Arena.entry? (Arena.ofTree t) c =
      some ⟨parent, source, .block head children after semicolon⟩)
    (hids : ∀ id ∈ ids, id ∈ children) :
    ∃ b edited kids ns, (Arena.ofTree t).setChildren? ids (.node c) = some b ∧
      b.tree? = some edited ∧ ids.mapM (Arena.ofTree t).node? = some ns ∧ (∀ n ∈ ns, n ∈ kids) ∧
        t.Exchanged (.block source head kids after semicolon)
          (.block source head ns after semicolon) edited := by
  have hc : c < (Arena.ofTree t).size := (Array.getElem?_eq_some_iff.mp hentry).1
  obtain ⟨container, old, hold, -, -⟩ := exists_stores_ofTree t hc
  obtain ⟨kids, rfl, rfl, hkids⟩ := hold.exists_eq_block hentry
  have hsizes (id : NodeId) (hid : id ∈ ids) : id < (Arena.ofTree t).size := by
    obtain ⟨n, -, hn⟩ := hkids.exists_of_mem (hids id hid)
    exact hn.lt_size
  obtain ⟨ns, hns, hmem, hexchanges⟩ := hold.exists_exchanges hids
  obtain ⟨edited, hedited, hexchanged⟩ := hexchanges.exists_tree? Array.size_setIfInBounds hc
  exact ⟨_, edited, kids, ns, setChildren?_of_entry? hentry hsizes, hedited, hns, hmem, hexchanged⟩

end Arena

end Stylesheet
