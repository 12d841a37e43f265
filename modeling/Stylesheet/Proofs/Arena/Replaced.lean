import Stylesheet.Proofs.Arena.Acyclic
import Stylesheet.Proofs.Arena.Exchanged
import Stylesheet.Proofs.Arena.Order
import Stylesheet.Proofs.Checked.Printer

/-!
# Replacing a node

If a node is visited once from the top, an arena that has another content for it has the same tree
but for this node (`Visits.exists_exchanged`). What a container prints around a node depends on the
node only as far as it is a statement or a comment (`Node.Exchanged.exists_text`), so everything
that is printed around the node stays the same (`printed_around_replaced`).
-/

namespace Stylesheet

/-! ## Nodes -/

namespace Node

variable {n m old new : Node}

/-- What is printed in front of one of the siblings and behind. -/
theorem exists_textAll {inner inner' front back : String}
    (hstatement : m.isStatement = n.isStatement) (hcomment : m.isComment = n.isComment)
    (hn : n.text = front ++ inner ++ back) (hm : m.text = front ++ inner' ++ back)
    (semicolon : Bool) (ns behind : List Node) :
    ∃ front' back', textAll semicolon (ns ++ n :: behind) = front' ++ inner ++ back' ∧
      textAll semicolon (ns ++ m :: behind) = front' ++ inner' ++ back' := by
  have hbefore : textBefore semicolon (m :: behind) ns = textBefore semicolon (n :: behind) ns :=
    textBefore_congr semicolon (by simp [hcomment]) ns
  have hneeds : m.needsSemicolon semicolon behind = n.needsSemicolon semicolon behind := by
    rw [needsSemicolon, needsSemicolon, hstatement]
  refine ⟨textBefore semicolon (n :: behind) ns ++ front,
    back ++ (if n.needsSemicolon semicolon behind then ";" else "") ++ textAll semicolon behind,
    ?_, ?_⟩
  · rw [textAll_append, textAll_cons, hn]
    simp only [String.append_assoc]
  · rw [textAll_append, textAll_cons, hm, hbefore, hneeds]
    simp only [String.append_assoc]

/-- Where a node is exchanged for another of its sort, what is printed around it stays. -/
theorem Exchanged.exists_text (h : Exchanged old new n m)
    (hstatement : new.isStatement = old.isStatement) (hcomment : new.isComment = old.isComment) :
    m.isStatement = n.isStatement ∧ m.isComment = n.isComment ∧
      ∃ front back, n.text = front ++ old.text ++ back ∧ m.text = front ++ new.text ++ back := by
  induction h with
  | here => exact ⟨hstatement, hcomment, "", "", by simp, by simp⟩
  | @inside source head siblings behind n m after semicolon _ ih =>
    obtain ⟨hsort, hsort', front, back, hn, hm⟩ := ih
    obtain ⟨front', back', hn', hm'⟩ :=
      exists_textAll hsort hsort' hn hm semicolon siblings behind
    refine ⟨rfl, rfl, head.addTo "" ++ "\x7b" ++ front', back' ++ after ++ "\x7d", ?_, ?_⟩
    · rw [text_block, hn']
      simp only [String.append_assoc]
    · rw [text_block, hm']
      simp only [String.append_assoc]

end Node

theorem Tree.Exchanged.exists_text {t u : Tree} {old new : Node} (h : t.Exchanged old new u)
    (hstatement : new.isStatement = old.isStatement) (hcomment : new.isComment = old.isComment) :
    ∃ front back, t.text = front ++ old.text ++ back ∧ u.text = front ++ new.text ++ back := by
  obtain ⟨siblings, n, m, behind, hrules, hexchanged, rfl⟩ := h
  obtain ⟨hsort, hsort', front, back, hn, hm⟩ := hexchanged.exists_text hstatement hcomment
  obtain ⟨front', back', hn', hm'⟩ :=
    Node.exists_textAll hsort hsort' hn hm t.semicolon siblings behind
  refine ⟨front', back' ++ t.after, ?_, ?_⟩
  · rw [Tree.text_eq, hrules, hn', String.append_assoc]
  · rw [Tree.text_eq, hm', String.append_assoc]

/-! ## Arenas -/

namespace Arena

open Checked

variable {a b : Arena} {id : NodeId} {ids visited : List NodeId} {depth : Nat} {n m : Node}
variable {ns ms : List Node}

/-- A node is the same whatever is expanded besides. -/
theorem expand?_succ (h : a.expand? depth id = some n) : a.expand? (depth + 1) id = some n := by
  induction depth generalizing id n with
  | zero => contradiction
  | succ depth ih =>
    have hall {ids : List NodeId} {ns : List Node} (hns : ids.mapM (a.expand? depth) = some ns) :
        ids.mapM (a.expand? (depth + 1)) = some ns := by
      induction ids generalizing ns with
      | nil => exact hns
      | cons id ids ihAll =>
        obtain ⟨n, behind, rfl, hn, hbehind⟩ := exists_of_mapM_cons hns
        simp [ih hn, ihAll hbehind]
    cases expands_of_expand? h with
    | leaf hentry => simp [expand?, hentry]
    | block hentry hchildren =>
      rw [expand?, hentry]
      simp [hall hchildren]

theorem expand?_of_le {depth' : Nat} (h : a.expand? depth id = some n) (hle : depth ≤ depth') :
    a.expand? depth' id = some n := by
  induction hle with
  | refl => exact h
  | step _ ih => exact expand?_succ ih

/-- What can be expanded can be visited. -/
theorem exists_visits (h : ids.mapM (a.expand? depth) = some ns) :
    ∃ visited, a.Visits ids visited := by
  induction depth generalizing ids ns with
  | zero =>
    cases ids with
    | nil => exact ⟨[], .nil⟩
    | cons id ids =>
      obtain ⟨n, behind, -, hn, -⟩ := exists_of_mapM_cons h
      contradiction
  | succ depth ih =>
    induction ids generalizing ns with
    | nil => exact ⟨[], .nil⟩
    | cons id ids ihAll =>
      obtain ⟨n, behind, -, hn, hbehind⟩ := exists_of_mapM_cons h
      obtain ⟨visited, hvisited⟩ := ihAll hbehind
      cases expands_of_expand? hn with
      | leaf hentry => exact ⟨_, .cons hentry .nil hvisited⟩
      | block hentry hchildren =>
        obtain ⟨inside, hinside⟩ := ih hchildren
        exact ⟨_, .cons hentry hinside hvisited⟩

/-! ## One entry replaced -/

section

variable (hentries : ∀ i ≠ id, b.entry? i = a.entry? i)

include hentries

theorem expand?_eq_of_children {other : NodeId} {entry : Entry} (hne : other ≠ id)
    (hentry : a.entry? other = some entry)
    (hchildren : ∀ depth, entry.content.children.mapM (b.expand? depth) =
      entry.content.children.mapM (a.expand? depth)) (depth : Nat) :
    b.expand? depth other = a.expand? depth other := by
  cases depth with
  | zero => rfl
  | succ depth =>
    have hkids := hchildren depth
    rw [expand?, expand?, hentries other hne, hentry]
    cases hcontent : entry.content with
    | leaf l => simp [hcontent]
    | block head children after semicolon =>
      rw [hcontent, Content.children] at hkids
      simp [hcontent, hkids]

/-- Nodes that do not have the node inside of them are expanded as before. -/
theorem Visits.mapM_expand?_eq (h : a.Visits ids visited) (hid : id ∉ visited) (depth : Nat) :
    ids.mapM (b.expand? depth) = ids.mapM (a.expand? depth) := by
  induction h generalizing depth with
  | nil => rfl
  | cons hentry _ _ inner outer =>
    rw [List.mem_cons, List.mem_append, not_or, not_or] at hid
    obtain ⟨hne, hinside, hvisited⟩ := hid
    have hfirst := expand?_eq_of_children hentries (Ne.symm hne) hentry (inner hinside) depth
    rw [List.mapM_cons, List.mapM_cons, hfirst, outer hvisited depth]

/-- Where a node is visited once, the tree is the same but for this node. -/
theorem Visits.exists_exchanged (h : a.Visits ids visited) (honce : visited.count id = 1)
    (hns : ids.mapM (a.expand? depth) = some ns) (hms : ids.mapM (b.expand? depth) = some ms) :
    ∃ old new, (∃ depth' ≤ depth, a.expand? depth' id = some old ∧
        b.expand? depth' id = some new) ∧
      ∃ front n m behind, ns = front ++ n :: behind ∧ ms = front ++ m :: behind ∧
        Node.Exchanged old new n m := by
  induction h generalizing depth ns ms with
  | nil => contradiction
  | @cons head behind inside visited entry hentry hinner houter inner outer =>
    obtain ⟨n, more, rfl, hn, hmore⟩ := exists_of_mapM_cons hns
    obtain ⟨m, more', rfl, hm, hmore'⟩ := exists_of_mapM_cons hms
    rw [List.count_cons, List.count_append] at honce
    by_cases hhead : head = id
    · -- The node itself: no other is changed.
      subst hhead
      rw [beq_self_eq_true, if_pos rfl] at honce
      have hnot : head ∉ visited := List.count_eq_zero.mp (by omega)
      have hrest := houter.mapM_expand?_eq hentries hnot depth
      rw [hmore, hmore', Option.some.injEq] at hrest
      exact ⟨n, m, ⟨depth, Nat.le_refl _, hn, hm⟩, [], n, m, more, rfl, by rw [hrest]; rfl, .here⟩
    rw [beq_false_of_ne hhead, if_neg Bool.false_ne_true, Nat.add_zero] at honce
    by_cases hinside : id ∈ inside
    · -- The node is inside of the first, which is a block in both arenas.
      have hpos := List.count_pos_iff.mpr hinside
      have hnot : id ∉ visited := List.count_eq_zero.mp (by omega)
      have hrest := houter.mapM_expand?_eq hentries hnot depth
      rw [hmore, hmore', Option.some.injEq] at hrest
      obtain ⟨depth, rfl⟩ : ∃ d, depth = d + 1 := by
        cases depth with
        | zero => contradiction
        | succ depth => exact ⟨depth, rfl⟩
      cases expands_of_expand? hn with
      | leaf hleaf =>
        obtain rfl := Option.some.inj (hentry.symm.trans hleaf)
        cases hinner
        exact absurd hinside List.not_mem_nil
      | block hblock hkids =>
        obtain rfl := Option.some.inj (hentry.symm.trans hblock)
        have hsame := (hentries head hhead).trans hentry
        cases expands_of_expand? hm with
        | leaf hleaf => exact nomatch hsame.symm.trans hleaf
        | block hblock' hkids' =>
          obtain ⟨rfl⟩ := Option.some.inj (hsame.symm.trans hblock')
          obtain ⟨old, new, ⟨depth', hle, hfound⟩, siblings, k, k', later, rfl, rfl, hexchanged⟩ :=
            inner (by omega) hkids hkids'
          exact ⟨old, new, ⟨depth', Nat.le_succ_of_le hle, hfound⟩, [], _, _, more, rfl,
            by rw [hrest]; rfl, .inside hexchanged⟩
    · have hzero := List.count_eq_zero.mpr hinside
      have hsame := expand?_eq_of_children hentries hhead hentry
        (hinner.mapM_expand?_eq hentries hinside) depth
      rw [hn, hm, Option.some.injEq] at hsame
      obtain ⟨old, new, hfound, siblings, k, k', later, rfl, rfl, hexchanged⟩ :=
        outer (by omega) hmore hmore'
      exact ⟨old, new, hfound, n :: siblings, k, k', later, rfl, by rw [hsame]; rfl, hexchanged⟩

end

/-- The node gets the content and nothing else is changed. -/
theorem exists_of_replace? {content : Content} (h : a.replace? id content = some b) :
    (∃ entry, a.entry? id = some entry ∧ b.entry? id = some { entry with content }) ∧
      (∀ i ≠ id, b.entry? i = a.entry? i) ∧ b.size = a.size ∧
      b = { a with entries := b.entries } := by
  simp only [replace?, updateContent?, update?, Option.map_some, Option.bind_eq_bind,
    Option.bind_eq_some_iff] at h
  obtain ⟨entry, hentry, new, hnew, hb⟩ := h
  obtain rfl := Option.some.inj hnew
  obtain rfl := Option.some.inj hb
  have hlt := (Array.getElem?_eq_some_iff.mp hentry).1
  refine ⟨⟨entry, hentry, ?_⟩, fun i hi ↦ ?_, Array.size_setIfInBounds, rfl⟩
  · exact Array.getElem?_setIfInBounds_self_of_lt hlt
  · exact Array.getElem?_setIfInBounds_ne hi.symm

/-- The tree is changed where the node stands in it. -/
theorem Acyclic.exists_exchanged {content : Content} (ha : a.Acyclic) (hb : b.Acyclic)
    (hvisited : a.Visits a.rules visited) (honce : visited.count id = 1)
    (h : a.replace? id content = some b) :
    ∃ t u old new, a.tree? = some t ∧ b.tree? = some u ∧ a.node? id = some old ∧
      b.node? id = some new ∧ t.Exchanged old new u := by
  obtain ⟨-, hentries, hsize, hsame⟩ := exists_of_replace? h
  obtain ⟨t, ht⟩ := ha.exists_tree?
  obtain ⟨u, hu⟩ := hb.exists_tree?
  have htree := ht
  have hedited := hu
  simp only [tree?, Option.bind_eq_bind, Option.bind_eq_some_iff] at htree hedited
  obtain ⟨ns, hns, hruleSame⟩ := htree
  obtain ⟨ms, hms, heditSame⟩ := hedited
  obtain rfl := Option.some.inj hruleSame
  obtain rfl := Option.some.inj heditSame
  have hrules : b.rules = a.rules := by rw [hsame]
  have hms' : a.rules.mapM (b.expand? a.size) = some ms := by rw [← hsize, ← hrules]; exact hms
  obtain ⟨old, new, ⟨depth, hdepth, hold, hnew⟩, front, n, m, behind, rfl, rfl, hexchanged⟩ :=
    hvisited.exists_exchanged hentries honce hns hms'
  refine ⟨_, _, old, new, ht, hu, expand?_of_le hold hdepth, ?_, front, n, m, behind, rfl,
    hexchanged, by rw [hsame]⟩
  rw [node?, hsize]
  exact expand?_of_le hnew hdepth

end Arena

open Arena Checked

/-- The text of a tree has the text of each node that is visited once, and other content for the
node, as long as it is a statement or a comment just as it was, changes nothing around it. -/
theorem printed_around_replaced (a : Arena) (h : a.Acyclic) :
    ∃ visited, a.Visits a.rules visited ∧ ∀ id entry content b, visited.count id = 1 →
      a.entry? id = some entry → a.replace? id content = some b → b.Acyclic →
      content.isStatement = entry.content.isStatement →
      content.isComment = entry.content.isComment →
        ∃ front back old new, a.nodeText? id = some old ∧ b.nodeText? id = some new ∧
          a.text? = some (front ++ old ++ back) ∧ b.text? = some (front ++ new ++ back) := by
  obtain ⟨t, ht⟩ := h.exists_tree?
  have hrules : ∃ ns, a.rules.mapM a.node? = some ns := by
    obtain ⟨ns, hns, -⟩ := Option.bind_eq_some_iff.mp ht
    exact ⟨ns, hns⟩
  obtain ⟨ns, hns⟩ := hrules
  obtain ⟨visited, hvisited⟩ := exists_visits hns
  refine ⟨visited, hvisited, ?_⟩
  intro id entry content b honce hentry hreplace hb hstatement hcomment
  obtain ⟨t, u, old, new, ht, hu, hold, hnew, hexchanged⟩ :=
    h.exists_exchanged hb hvisited honce hreplace
  obtain ⟨⟨before, hbefore, hafter⟩, -⟩ := exists_of_replace? hreplace
  obtain rfl := Option.some.inj (hentry.symm.trans hbefore)
  -- What the nodes are is told by their entries.
  obtain ⟨_, hfound, holdComment, holdStatement⟩ := exists_entry_of_expand? hold
  obtain rfl := Option.some.inj (hentry.symm.trans hfound)
  obtain ⟨_, hfound', hnewComment, hnewStatement⟩ := exists_entry_of_expand? hnew
  obtain rfl := Option.some.inj (hafter.symm.trans hfound')
  obtain ⟨front, back, htext, htext'⟩ := hexchanged.exists_text
    (hnewStatement.symm.trans (hstatement.trans holdStatement))
    (hnewComment.symm.trans (hcomment.trans holdComment))
  exact ⟨front, back, old.text, new.text, by rw [nodeText?, hold]; rfl,
    by rw [nodeText?, hnew]; rfl, by rw [text?, ht, Option.map_some, htext],
    by rw [text?, hu, Option.map_some, htext']⟩

theorem printed_around_replaced_last :
    ∃ t u, parse {} "a\x7bb:c;d:e/**/\x7d" = .ok t ∧ parse {} "a\x7bb:c;d:f/**/\x7d" = .ok u ∧
      (Arena.ofTree t).replace? 2 (.leaf (.declaration ⟨"", "d", ":", "f/**/", false, ""⟩)) =
        some (Arena.ofTree u) ∧
      ∃ front back old new, (Arena.ofTree t).nodeText? 2 = some old ∧
        (Arena.ofTree u).nodeText? 2 = some new ∧
        (Arena.ofTree t).text? = some (front ++ old ++ back) ∧
        (Arena.ofTree u).text? = some (front ++ new ++ back) := by
  let content : Content := .leaf (.declaration ⟨"", "d", ":", "f/**/", false, ""⟩)
  have hfound : ((parse {} "a\x7bb:c;d:e/**/\x7d").toOption.map fun t ↦
      ((Arena.ofTree t).size, (Arena.entry? (Arena.ofTree t) 2).map Entry.content,
        (Arena.ofTree t).replace? 2 content)) =
      some (3, some (.leaf (.declaration ⟨"", "d", ":", "e/**/", false, ""⟩)),
        (parse {} "a\x7bb:c;d:f/**/\x7d").toOption.map Arena.ofTree) := by decide +kernel
  obtain ⟨t, ht, hall⟩ := exists_of_toOption hfound
  obtain ⟨hsize, hrest⟩ := Prod.mk.inj hall
  obtain ⟨hcontent, hreplace⟩ := Prod.mk.inj hrest
  obtain ⟨entry, hentry, hold⟩ := Option.map_eq_some_iff.mp hcontent
  have hedited : ((parse {} "a\x7bb:c;d:f/**/\x7d").toOption.map Tree.size) = some 3 := by
    decide +kernel
  obtain ⟨u, hu, -⟩ := exists_of_toOption hedited
  have hb : (Arena.ofTree t).replace? 2 content = some (Arena.ofTree u) := by
    rw [hreplace, hu]
    rfl
  obtain ⟨visited, hvisited, hprinted⟩ := printed_around_replaced _ (acyclic_ofTree t)
  have honce : visited.count 2 = 1 := by
    rw [hvisited.unique (visits_ofTree t), Arena.descendants, hsize]
    rfl
  exact ⟨t, u, ht, hu, hb, hprinted 2 entry content _ honce hentry hb (acyclic_ofTree u)
    (by rw [hold]; rfl) (by rw [hold]; rfl)⟩

end Stylesheet
