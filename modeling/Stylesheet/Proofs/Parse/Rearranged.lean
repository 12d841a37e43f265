import Stylesheet.Proofs.Arena.Exchanged
import Stylesheet.Proofs.Parse.Recorded
import Stylesheet.Proofs.Parse.Reread
import Stylesheet.Proofs.Parse.Strict

/-!
# Rearranged blocks

If a block of a parsed stylesheet lists its children in another way, what is printed can be read
again, and each node says what it said before (`rearranged_of_parse`). The nodes of a written tree
are written by themselves (`Node.Written`), so that only comments behind a statement without a
semicolon have to stay where they are: nothing would end the statement.
-/

namespace Stylesheet

variable {source : Source} {head : Head} {kids ns : List Node} {after : String} {semicolon : Bool}

theorem Node.forall_mem_exchanged {p : Node → Prop} {front behind : List Node} {n m : Node}
    (h : ∀ k ∈ front ++ n :: behind, p k) (hm : p n → p m) : ∀ k ∈ front ++ m :: behind, p k := by
  rw [List.forall_mem_append, List.forall_mem_cons] at h ⊢
  exact ⟨h.1, hm h.2.1, h.2.2⟩

namespace Node.Exchanged

variable {n m : Node}

/-- Both nodes are blocks, and their children differ. -/
theorem exists_blocks (h : Exchanged (.block source head kids after semicolon)
    (.block source head ns after semicolon) n m) :
    ∃ source head children others after semicolon, n = .block source head children after semicolon ∧
      m = .block source head others after semicolon := by
  cases h with
  | here => exact ⟨_, _, _, _, _, _, rfl, rfl⟩
  | inside _ => exact ⟨_, _, _, _, _, _, rfl, rfl⟩

theorem apart_iff {front behind : List Node} {last : Bool}
    (h : Exchanged (.block source head kids after semicolon)
      (.block source head ns after semicolon) n m) :
    Apart last (front ++ m :: behind) ↔ Apart last (front ++ n :: behind) := by
  obtain ⟨_, _, _, _, _, _, rfl, rfl⟩ := h.exists_blocks
  rw [apart_append_cons_iff rfl rfl, apart_append_cons_iff rfl rfl]

/-- A written node stays written if the nodes that its block lists can stand there. -/
theorem written (h : Exchanged (.block source head kids after semicolon)
    (.block source head ns after semicolon) n m) (hns : ∀ k ∈ ns, k ∈ kids)
    (hapart : Apart semicolon ns) {kind : BodyKind} (hn : n.Written kind) : m.Written kind := by
  induction h generalizing kind with
  | here =>
    cases hn with
    | block hhead hkids hafter _ => exact .block hhead (fun k hk ↦ hkids k (hns k hk)) hafter hapart
  | inside hinside ih =>
    cases hn with
    | block hhead hchildren hafter hchildrenApart =>
      exact .block hhead (forall_mem_exchanged hchildren ih) hafter
        (hinside.apart_iff.mpr hchildrenApart)

end Node.Exchanged

namespace Tree.Exchanged

variable {t u : Tree}

theorem written (h : t.Exchanged (.block source head kids after semicolon)
    (.block source head ns after semicolon) u) (hns : ∀ k ∈ ns, k ∈ kids)
    (hapart : Node.Apart semicolon ns) (ht : t.Written) : u.Written := by
  obtain ⟨front, n, m, behind, hrules, hexchanged, rfl⟩ := h
  obtain ⟨hafter, ⟨hwritten, htop⟩ | ⟨most, place, l, hmost, hwritten, hlast⟩⟩ := ht
  · rw [hrules] at hwritten htop
    exact ⟨hafter, .inl ⟨Node.forall_mem_exchanged hwritten (hexchanged.written hns hapart),
      hexchanged.apart_iff.mpr htop⟩⟩
  · -- The statement at the end is not the block, so it stands behind it.
    rw [hmost] at hrules
    obtain rfl | ⟨more, last, rfl⟩ := List.eq_nil_or_concat behind
    · obtain ⟨_, _, _, _, _, _, rfl, rfl⟩ := hexchanged.exists_blocks
      exact nomatch List.append_inj_right' hrules rfl
    · rw [List.concat_eq_append, ← List.cons_append, ← List.append_assoc] at hrules
      obtain ⟨rfl, hsame⟩ := List.append_inj' hrules rfl
      refine ⟨hafter, .inr ⟨front ++ m :: more, place, l, ?_,
        Node.forall_mem_exchanged hwritten (hexchanged.written hns hapart), hlast⟩⟩
      rw [hsame]
      simp

/-- The texts start with the same character, since that of a block is not empty. -/
theorem head?_text (h : t.Exchanged (.block source head kids after semicolon)
    (.block source head ns after semicolon) u) :
    u.text.toList.head? = t.text.toList.head? := by
  obtain ⟨front, n, m, behind, hrules, hexchanged, rfl⟩ := h
  obtain ⟨place, opening, children, others, ending, last, rfl, rfl⟩ := hexchanged.exists_blocks
  have hbefore : Node.textBefore t.semicolon
        (.block place opening others ending last :: behind) front =
      Node.textBefore t.semicolon (.block place opening children ending last :: behind) front := by
    refine Node.textBefore_congr _ ?_ front
    rfl
  rw [Tree.text_eq, Tree.text_eq, hrules, Node.textAll_append, Node.textAll_append, hbefore]
  simp [String.toList_append, List.head?_append]

end Tree.Exchanged

open Arena

/-- In the arena of a text that was parsed strictly, let a block list some of its children, in any
order and any number of times, but no comment behind a last statement without a semicolon. What the
arena prints then is parsed strictly to nodes that have the same gists. -/
theorem rearranged_of_parse {options : Options} {text : String} {tree : Tree}
    (hstrict : options.strict = true) (hparse : parse options text = .ok tree)
    (hother : ∀ t ∈ tokenize text, t.kind ≠ .other)
    (hmark : (withoutMark text).toList.head? ≠ some '\uFEFF') {c : NodeId} {parent : Container}
    {source : Source} {head : Head} {children : List NodeId} {after : String} {semicolon : Bool}
    (hentry : Arena.entry? (Arena.ofTree tree) c =
      some ⟨parent, source, .block head children after semicolon⟩)
    {ids : List NodeId} (hids : ∀ id ∈ ids, id ∈ children)
    (hapart : ∀ ns, ids.mapM (Arena.ofTree tree).node? = some ns → Node.Apart semicolon ns) :
    ∃ b edited printed reread, (Arena.ofTree tree).setChildren? ids (.node c) = some b ∧
      b.tree? = some edited ∧ b.text? = some printed ∧ parse options printed = .ok reread ∧
        reread.rules.map Node.gist = edited.rules.map Node.gist := by
  obtain ⟨b, edited, kids, ns, hset, htree, hns, hmem, hexchanged⟩ :=
    exists_tree?_setChildren? tree hentry hids
  have hwritten := hexchanged.written hmem (hapart ns hns) (written_of_parse hstrict hparse hother)
  have hfirst : edited.text.toList.head? ≠ some '\uFEFF' := by
    obtain ⟨hfatal, hrepairs, hfinal, rfl⟩ :=
      (parse_strict_eq_ok_iff options text hstrict tree).mp hparse
    rwa [hexchanged.head?_text, text_treeOf_strict hfatal hrepairs hfinal]
  obtain ⟨reread, hreread, hgists⟩ := hwritten.reread hstrict hfirst
  exact ⟨b, edited, edited.text, reread, hset, htree, by rw [text?, htree, Option.map_some],
    hreread, hgists⟩

theorem rearranged_of_parse_repeated :
    ∃ tree b edited reread, parse { strict := true } "a\x7bb:c;/*d*/e:f\x7d" = .ok tree ∧
      (Arena.ofTree tree).setChildren? [3, 2, 1, 1] (.node 0) = some b ∧ b.tree? = some edited ∧
      b.text? = some "a\x7be:f;/*d*/b:c;b:c\x7d" ∧
      parse { strict := true } "a\x7be:f;/*d*/b:c;b:c\x7d" = .ok reread ∧
      reread.rules.map Node.gist = edited.rules.map Node.gist := by
  have hchecked : ((parse { strict := true } "a\x7bb:c;/*d*/e:f\x7d").toOption.map fun tree ↦
      let a := Arena.ofTree tree
      (Arena.entry? a 0, ([3, 2, 1, 1].mapM a.node?).all fun ns ↦ decide (Node.Apart false ns),
        (a.setChildren? [3, 2, 1, 1] (.node 0)).bind Arena.text?)) =
      some (some ⟨.root, ⟨none, 1, 1⟩, .block (.rule ⟨"", "a", ""⟩) [1, 2, 3] "" false⟩, true,
        some "a\x7be:f;/*d*/b:c;b:c\x7d") := by decide +kernel
  have hother : (tokenize "a\x7bb:c;/*d*/e:f\x7d").all fun t ↦ t.kind ≠ .other := by
    decide +kernel
  have hids : ∀ id ∈ [3, 2, 1, 1], id ∈ [1, 2, 3] := by decide
  obtain ⟨tree, htree, hfound⟩ := exists_of_toOption hchecked
  obtain ⟨hentry, hrest⟩ := Prod.mk.inj hfound
  obtain ⟨hapart, htext⟩ := Prod.mk.inj hrest
  obtain ⟨b, edited, printed, reread, hset, hedited, hprinted, hreread, hgists⟩ :=
    rearranged_of_parse rfl htree (fun t ht ↦ by simpa using List.all_eq_true.mp hother t ht)
      (by decide) hentry hids fun ns hns ↦ by
        rw [hns] at hapart
        exact of_decide_eq_true hapart
  have hsame : printed = "a\x7be:f;/*d*/b:c;b:c\x7d" := by
    rw [hset, Option.bind_some, hprinted, Option.some.injEq] at htext
    exact htext
  subst hsame
  exact ⟨tree, b, edited, reread, htree, hset, hedited, hprinted, hreread, hgists⟩

end Stylesheet
