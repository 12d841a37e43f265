import Stylesheet.Node.Printer

/-!
# Siblings

What a container prints, split at one of the nodes that it holds. In front of the last node each
statement has its semicolon, unless that node is a comment: comments go behind the others as they
are.
-/

namespace Stylesheet

namespace Node

theorem isStatement_of_isComment {n : Node} (h : n.isComment = true) : n.isStatement = false := by
  cases n with
  | leaf source l =>
    rw [isComment] at h
    rw [isStatement, Leaf.isStatement, h, Bool.not_true]
  | block => rfl

/-- A comment at the end asks for no semicolon in front of it. -/
theorem textAll_append_comment (semicolon : Bool) (ns : List Node) {c : Node}
    (h : c.isComment = true) :
    textAll semicolon (ns ++ [c]) = textAll semicolon ns ++ c.text := by
  induction ns with
  | nil => simp [needsSemicolon, isStatement_of_isComment h]
  | cons n ns ih =>
    have hneeds : n.needsSemicolon semicolon (ns ++ [c]) = n.needsSemicolon semicolon ns := by
      simp [needsSemicolon, h]
    rw [List.cons_append, textAll_cons, ih, hneeds, textAll_cons]
    simp only [String.append_assoc]

/-- Behind any other node the statements in front have their semicolons. -/
theorem textAll_append_plain (semicolon : Bool) (ns : List Node) {n : Node}
    (h : n.isComment = false) :
    textAll semicolon (ns ++ [n]) =
      textAll true ns ++ n.text ++ if n.isStatement && semicolon then ";" else "" := by
  induction ns with
  | nil => simp [needsSemicolon]
  | cons m ns ih =>
    have hneeds : m.needsSemicolon semicolon (ns ++ [n]) = m.needsSemicolon true ns := by
      simp [needsSemicolon, h]
    rw [List.cons_append, textAll_cons, ih, hneeds, textAll_cons]
    simp only [String.append_assoc]

/-- Comments at the end ask for no semicolons in front of them. -/
theorem textAll_append_comments (semicolon : Bool) (ns : List Node) {cs : List Node}
    (hcs : ∀ c ∈ cs, c.isComment = true) :
    textAll semicolon (ns ++ cs) = textAll semicolon ns ++ textAll true cs := by
  induction cs generalizing ns with
  | nil => simp
  | cons c cs ih =>
    obtain ⟨hc, hcs⟩ := List.forall_mem_cons.mp hcs
    have hone : textAll true (c :: cs) = c.text ++ textAll true cs := by
      simp [needsSemicolon, isStatement_of_isComment hc]
    rw [hone, ← String.append_assoc, ← textAll_append_comment semicolon ns hc, ← ih (ns ++ [c]) hcs,
      List.append_assoc]
    rfl

/-- If the last statement has no semicolon, no comments stand behind it. -/
def Apart (semicolon : Bool) (ns : List Node) : Prop :=
  semicolon = false → ∀ n ∈ ns.reverse.find? (!·.isComment), n.isStatement = true →
    ∀ last ∈ ns.getLast?, last.isComment = false

instance (semicolon : Bool) (ns : List Node) : Decidable (Apart semicolon ns) :=
  inferInstanceAs (Decidable (semicolon = false → ∀ n ∈ ns.reverse.find? (!·.isComment),
    n.isStatement = true → ∀ last ∈ ns.getLast?, last.isComment = false))

/-- In front of a block there are no statements without semicolons. -/
theorem apart_append_cons_iff {semicolon : Bool} {front behind : List Node} {n : Node}
    (hn : n.isComment = false) (hstatement : n.isStatement = false) :
    Apart semicolon (front ++ n :: behind) ↔ Apart semicolon behind := by
  have hfind : (front ++ n :: behind).reverse.find? (!·.isComment) =
      (behind.reverse.find? (!·.isComment)).or (some n) := by
    simp [List.find?_append, hn]
  unfold Apart
  rw [hfind]
  cases hbehind : behind.reverse.find? (!·.isComment) with
  | none => simp [hstatement]
  | some m =>
    obtain ⟨b, more, rfl⟩ : ∃ b more, behind = b :: more := by
      refine List.exists_cons_of_ne_nil ?_
      rintro rfl
      exact nomatch hbehind
    have hend : (front ++ n :: b :: more).getLast? = (b :: more).getLast? := by
      simp [List.getLast?_append, List.getLast?_cons]
    rw [hend]
    rfl

/-- Either all statements have their semicolons or the last node is a statement without one. -/
theorem Apart.cases {semicolon : Bool} {ns : List Node} (h : Apart semicolon ns) :
    textAll semicolon ns = textAll true ns ∨
      semicolon = false ∧ ∃ front last, ns = front ++ [last] ∧ last.isStatement = true := by
  cases semicolon with
  | true => exact .inl rfl
  | false =>
    cases hfind : ns.reverse.find? (!·.isComment) with
    | none =>
      have hcomments : ∀ n ∈ ns, n.isComment = true := by simpa using hfind
      have htext (semicolon : Bool) := textAll_append_comments semicolon [] hcomments
      simp only [List.nil_append, textAll_nil, String.empty_append] at htext
      exact .inl (htext false)
    | some n =>
      obtain ⟨hn, comments, front, hsplit, hcomments⟩ := List.find?_eq_some_iff_append.mp hfind
      have hplain : n.isComment = false := by simpa using hn
      have hcomments : ∀ c ∈ comments.reverse, c.isComment = true := by simpa using hcomments
      obtain rfl : ns = front.reverse ++ [n] ++ comments.reverse := by
        simpa using congrArg List.reverse hsplit
      cases hstatement : n.isStatement with
      | false =>
        rw [textAll_append_comments false _ hcomments, textAll_append_comments true _ hcomments,
          textAll_append_plain false _ hplain, textAll_append_plain true _ hplain, hstatement]
        exact .inl rfl
      | true =>
        have hlast := h rfl n hfind hstatement
        by_cases hnone : comments.reverse = []
        · exact .inr ⟨rfl, front.reverse, n, by rw [hnone, List.append_nil], hstatement⟩
        · have hend : (front.reverse ++ [n] ++ comments.reverse).getLast? =
              some (comments.reverse.getLast hnone) := by
            rw [List.getLast?_append, List.getLast?_eq_some_getLast hnone]
            rfl
          have hcomment := hcomments _ (List.getLast_mem hnone)
          rw [hlast _ hend] at hcomment
          contradiction

/-- What the nodes print if they have others behind them in their container. -/
def textBefore (semicolon : Bool) (behind : List Node) : List Node → String
  | [] => ""
  | n :: ns =>
    n.text ++ (if n.needsSemicolon semicolon (ns ++ behind) then ";" else "") ++
      textBefore semicolon behind ns

theorem textAll_append (semicolon : Bool) (ns behind : List Node) :
    textAll semicolon (ns ++ behind) =
      textBefore semicolon behind ns ++ textAll semicolon behind := by
  induction ns with
  | nil => rw [List.nil_append, textBefore, String.empty_append]
  | cons n ns ih =>
    rw [List.cons_append, textAll_cons, ih, textBefore]
    simp only [String.append_assoc]

/-- What the nodes print has to do with those behind only as far as these are comments. -/
theorem textBefore_congr (semicolon : Bool) {behind behind' : List Node}
    (h : behind.all isComment = behind'.all isComment) (ns : List Node) :
    textBefore semicolon behind ns = textBefore semicolon behind' ns := by
  induction ns with
  | nil => rfl
  | cons n ns ih => rw [textBefore, textBefore, ih]; simp [needsSemicolon, h]

end Node

end Stylesheet
