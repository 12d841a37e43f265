import Stylesheet.Proofs.Arena.Append
import Stylesheet.Proofs.Arena.Standing
import Stylesheet.Proofs.Parse.Semicolons

/-!
# Flags and semicolons

In the arena of a parsed text the flag of a container tells whether a semicolon directly follows its
last statement in the text (`semicolon_of_parse`). If the flag is set, the printer puts a semicolon
there, and what is added at the end of the text has none. If it is not set and a statement is the
last but for comments, then the end of the container has cut it off: it is the last node, with
nothing but blanks behind it.
-/

namespace Stylesheet

open Text Parse

def Content.semicolon? : Content → Option Bool
  | leaf _ => none
  | block _ _ _ semicolon => some semicolon

def Node.kind : Node → NodeKind
  | leaf _ l => l.kind
  | block _ head .. => head.kind

namespace Arena

def leaf? (a : Arena) (id : NodeId) : Option Leaf :=
  (a.entry? id).bind fun entry ↦
    match entry.content with
    | .leaf l => some l
    | .block .. => none

def semicolon? (a : Arena) : Container → Option Bool
  | .root => some a.semicolon
  | .node id => (a.entry? id).bind fun entry ↦ entry.content.semicolon?

/-- In the text a semicolon directly follows what the node prints. -/
def EndsAtSemicolon (a : Arena) (text : String) (id : NodeId) : Prop :=
  ∃ front back inner rest, a.Stands id front back ∧ a.nodeText? id = some inner ∧
    text = front ++ inner ++ ";" ++ rest

/-- What the flag of a container tells about the text. Among rules it is about the last child but
for comments, among declarations about the last declaration; where there is none, about the
statements without a colon between the braces. -/
structure FlagTells (a : Arena) (options : Options) (text : String) (container : Container)
    (body : BodyKind) (children : List NodeId) (semicolon : Bool) : Prop where
  rules : body = .rules → (semicolon = true ↔ ∃ front id behind p,
    children = front ++ id :: behind ∧ a.leaf? id = some (.statement p) ∧
      (∀ other ∈ behind, ∃ c, a.leaf? other = some (.comment c)) ∧
      a.EndsAtSemicolon (withoutMark text) id)
  declared : body = .declarations → ∀ front id behind d,
    children = front ++ id :: behind → a.leaf? id = some (.declaration d) →
    (∀ other ∈ behind, ∀ d, a.leaf? other ≠ some (.declaration d)) →
    (semicolon = true ↔ a.EndsAtSemicolon (withoutMark text) id)
  undeclared : body = .declarations →
    (∀ id ∈ children, ∀ d, a.leaf? id ≠ some (.declaration d)) →
    ∃ id entry, container = .node id ∧ a.entry? id = some entry ∧
      (semicolon = true ↔ ∃ stretch ∈ stretchesEnded
        (tokensInside (tokenize text) entry.source.position), IsColonless stretch) ∧
      (options.strict = true → semicolon = false)

/-! ## Containers and what they hold -/

/-- The container holds the nodes, numbered from the first on. -/
inductive Siblings (t : Tree) : (container : Container) → (body : BodyKind) →
    (start : Position) → (first : NodeId) → (ns : List Node) → (after : String) →
    (semicolon : Bool) → Prop
  | root : Siblings t .root .rules {} 0 t.rules t.after t.semicolon
  | node {parent : Container} {id : NodeId} {source : Source} {head : Head} {ns : List Node}
      {after : String} {semicolon : Bool}
      (h : (Arena.ofTree t).Stores parent id (.block source head ns after semicolon)) :
      Siblings t (.node id) head.body source.position (id + 1) ns after semicolon

section

variable {t : Tree} {container : Container} {body : BodyKind} {start : Position} {first : NodeId}
variable {ns front behind : List Node} {after : String} {semicolon : Bool} {n : Node}

theorem Siblings.children? (h : Siblings t container body start first ns after semicolon) :
    (Arena.ofTree t).children? container = some (Node.numbers first ns) := by
  cases h with
  | root => rfl
  | node h => exact h.children?

theorem Siblings.semicolon? (h : Siblings t container body start first ns after semicolon) :
    (Arena.ofTree t).semicolon? container = some semicolon := by
  cases h with
  | root => rfl
  | node h =>
    rw [Stores] at h
    rw [Arena.semicolon?, h.1]
    rfl

theorem Siblings.storesAll (h : Siblings t container body start first ns after semicolon) :
    (Arena.ofTree t).StoresAll container first ns := by
  cases h with
  | root => exact stores_ofTree t
  | node h =>
    rw [Stores] at h
    exact h.2

theorem Siblings.le_size (h : Siblings t container body start first ns after semicolon) :
    first ≤ (Arena.ofTree t).size := by
  cases h with
  | root => exact Nat.zero_le _
  | node h => exact h.lt_size

theorem StoresAll.stores {a : Arena} (h : a.StoresAll container first (front ++ n :: behind)) :
    a.Stores container (first + Node.sizeAll front) n := by
  rw [storesAll_append_iff, StoresAll] at h
  exact h.2.1

/-- One of the siblings stands in front of the others and of what ends the container. -/
theorem Siblings.exists_stands (h : Siblings t container body start first ns after semicolon)
    (hsplit : ns = front ++ n :: behind) :
    ∃ lead tail, (Arena.ofTree t).Stands (first + Node.sizeAll front) lead
        ((if n.needsSemicolon semicolon behind then ";" else "") ++
          Node.textAll semicolon behind ++ after ++ tail) ∧
      ∀ c ∈ tail.toList.head?, c = '}' := by
  have hstores := h.storesAll
  rw [hsplit, storesAll_append_iff, StoresAll] at hstores
  obtain ⟨hfront, hn, hbehind⟩ := hstores
  have hamong : (Arena.ofTree t).Among semicolon (Node.numbers first ns)
      (first + Node.sizeAll front) (Node.textBefore semicolon (n :: behind) front)
      ((if n.needsSemicolon semicolon behind then ";" else "") ++
        Node.textAll semicolon behind) :=
    ⟨_, _, front, n, behind, by rw [hsplit, Node.numbers_append]; rfl,
      hfront.node?_eq h.le_size, hn.node?_eq, hbehind.node?_eq hn.le_size, rfl, rfl⟩
  cases h with
  | root =>
    refine ⟨Node.textBefore t.semicolon (n :: behind) front, "", ?_, fun _ h ↦ nomatch h⟩
    rw [String.append_empty]
    exact .top hamong
  | @node parent id source head _ _ _ h =>
    obtain ⟨lead, back, houter⟩ := Arena.exists_stands t id h.lt_size
    rw [Stores] at h
    refine ⟨lead ++ head.addTo "" ++ "\x7b" ++ Node.textBefore semicolon (n :: behind) front,
      "\x7d" ++ back, ?_, by simp⟩
    rw [← String.append_assoc]
    exact .inside houter h.1 hamong

end

/-! ## Parsed texts -/

section

variable {options : Options} {text : String} {tree : Tree} {container : Container}
variable {body : BodyKind} {start : Position} {first : NodeId} {ns front behind : List Node}
variable {after : String} {semicolon : Bool} {n : Node}

/-- Each container of a parsed text holds siblings, and its flag says what it should. -/
theorem exists_siblings_of_parse (h : parse options text = .ok tree)
    (hbody : (Arena.ofTree tree).body? container = some body) :
    ∃ start first ns after semicolon, Siblings tree container body start first ns after semicolon ∧
      FlagFits options.strict (tokenize text) body start ns after semicolon := by
  obtain ⟨hfits, hrules⟩ := flagged_of_parse h
  cases container with
  | root =>
    obtain rfl := Option.some.inj hbody
    exact ⟨_, _, _, _, _, .root, hfits⟩
  | node id =>
    obtain ⟨entry, hentry, hcontent⟩ := Option.bind_eq_some_iff.mp hbody
    obtain ⟨parent, n, hn, hflagged⟩ := exists_inside_ofTree
      (fun _ _ _ _ _ hblock ↦ by cases hblock with | block _ hchildren => exact hchildren)
      hrules (Array.getElem?_eq_some_iff.mp hentry).1
    have hstored := hn
    cases hflagged with
    | leaf source l =>
      rw [Stores, hentry, Option.some.injEq] at hstored
      rw [hstored] at hcontent
      contradiction
    | block hfits _ =>
      rw [Stores, hentry, Option.some.injEq] at hstored
      rw [hstored.1] at hcontent
      obtain rfl := Option.some.inj hcontent
      exact ⟨_, _, _, _, _, .node hn, hfits⟩

/-- What is printed behind the text that was parsed has no semicolon. -/
theorem exists_closing_of_parse (h : parse options text = .ok tree) :
    ∃ closing, tree.text = withoutMark text ++ closing ∧ ';' ∉ closing.toList := by
  obtain ⟨s, -, htext, -⟩ := text_of_parse options text tree h
  refine ⟨_, htext, ?_⟩
  split
  · simp
  · rw [String.toList_append, List.mem_append, not_or]
    constructor
    · unfold commentEnd
      split <;> simp
    · simp [closers]

/-- What is printed in front of a node does not depend on how it has been found. -/
theorem Stands.front_unique {id : NodeId} {lead lead' back back' : String}
    (h : (Arena.ofTree tree).Stands id lead back) (h' : (Arena.ofTree tree).Stands id lead' back') :
    lead = lead' := by
  obtain ⟨parent, n, within, hn, -⟩ := h.exists_stores
  obtain ⟨source, content, hentry⟩ := hn.entry?
  obtain ⟨place, hplace, -⟩ := exists_place_ofTree tree hentry
  rw [← h.front_eq hplace, h'.front_eq hplace]

/-- A semicolon that is printed is one of the text, unless it is one of what is printed behind. -/
theorem exists_of_append_semicolon {lead rest source closing : String}
    (h : lead ++ ";" ++ rest = source ++ closing) (hclosing : ';' ∉ closing.toList) :
    ∃ rest, source = lead ++ ";" ++ rest := by
  have hsign : ";".toList = [';'] := rfl
  have hchars := congrArg String.toList h
  rw [String.toList_append, String.toList_append, String.toList_append, hsign, List.append_assoc,
    List.append_eq_append_iff] at hchars
  obtain ⟨as, hsource, hrest⟩ | ⟨bs, -, hbehind⟩ := hchars
  · obtain ⟨-, hclosed⟩ | ⟨as, rfl, -⟩ := List.cons_eq_append_iff.mp hrest
    · exact absurd (hclosed ▸ List.mem_cons_self) hclosing
    · refine ⟨String.ofList as, String.toList_inj.mp ?_⟩
      simp [hsource]
  · exact absurd (hbehind ▸ List.mem_append_right bs List.mem_cons_self) hclosing

theorem find?_reverse_append_cons (front : List Node) (hplain : n.isComment = false)
    (hcomments : ∀ m ∈ behind, m.isComment = true) :
    (front ++ n :: behind).reverse.find? (!·.isComment) = some n := by
  have hnone : behind.reverse.find? (!·.isComment) = none := by
    simpa using hcomments
  rw [List.reverse_append, List.reverse_cons, List.append_assoc, List.find?_append, hnone,
    Option.none_or]
  simp [hplain]

theorem eq_nil_of_getLast? (hplain : n.isComment = false)
    (hcomments : ∀ m ∈ behind, m.isComment = true)
    (hlast : (front ++ n :: behind).getLast? = some n) : behind = [] := by
  rcases List.eq_nil_or_concat behind with hnil | ⟨others, last, hothers⟩
  · exact hnil
  · rw [hothers, List.concat_eq_append] at hcomments hlast
    have hcomment := hcomments last (by simp)
    rw [← List.cons_append, ← List.append_assoc, List.getLast?_concat] at hlast
    rw [Option.some.inj hlast, hplain] at hcomment
    contradiction

/-- The last statement but for comments ends with a semicolon where the flag is set. -/
theorem Siblings.endsAtSemicolon_iff (h : parse options text = .ok tree)
    (hsiblings : Siblings tree container body start first ns after semicolon)
    (hfits : FlagFits options.strict (tokenize text) body start ns after semicolon)
    (hsplit : ns = front ++ n :: behind) (hstatement : n.isStatement = true)
    (hcomments : ∀ m ∈ behind, m.isComment = true) :
    (Arena.ofTree tree).EndsAtSemicolon (withoutMark text) (first + Node.sizeAll front) ↔
      semicolon = true := by
  obtain ⟨lead, tail, hstands, htail⟩ := hsiblings.exists_stands hsplit
  obtain ⟨closing, hclosing, hplain⟩ := exists_closing_of_parse h
  have hn : (Arena.ofTree tree).Stores container (first + Node.sizeAll front) n := by
    have hstores := hsiblings.storesAll
    rw [hsplit] at hstores
    exact hstores.stores
  have hprinted : tree.text = lead ++ n.text ++ ((if n.needsSemicolon semicolon behind then ";"
      else "") ++ Node.textAll semicolon behind ++ after ++ tail) := by
    obtain ⟨parent, m, within, hm, htext, -⟩ := hstands.exists_stores
    have hsame := hm.node?_eq.symm.trans hn.node?_eq
    rwa [Option.some.inj hsame] at htext
  have hinner : (Arena.ofTree tree).nodeText? (first + Node.sizeAll front) = some n.text := by
    rw [nodeText?, hn.node?_eq, Option.map_some]
  cases hset : semicolon with
  | true =>
    refine iff_of_true ?_ rfl
    have hneeds : n.needsSemicolon semicolon behind = true := by
      rw [Node.needsSemicolon, hstatement, hset]
      rfl
    have hsemicolon : lead ++ n.text ++ ";" ++ (Node.textAll semicolon behind ++ after ++ tail) =
        withoutMark text ++ closing := by
      rw [← hclosing, hprinted, if_pos hneeds]
      simp only [String.append_assoc]
    obtain ⟨rest, hrest⟩ := exists_of_append_semicolon hsemicolon hplain
    exact ⟨lead, _, n.text, rest, hstands, hinner, hrest⟩
  | false =>
    refine iff_of_false ?_ Bool.false_ne_true
    rintro ⟨lead', back, inner, rest, hstands', hinner', htext⟩
    obtain rfl := hstands.front_unique hstands'
    obtain rfl := Option.some.inj (hinner.symm.trans hinner')
    have hcomment : n.isComment = false := by
      cases hcase : n.isComment with
      | false => rfl
      | true => exact hstatement.symm.trans (Node.isStatement_of_isComment hcase)
    have hfind : ns.reverse.find? (!·.isComment) = some n :=
      hsplit ▸ find?_reverse_append_cons front hcomment hcomments
    obtain ⟨hlast, hblanks⟩ := hfits.unset hset n hfind hstatement
    obtain rfl : behind = [] := eq_nil_of_getLast? hcomment hcomments (hsplit ▸ hlast)
    have hneeds : ¬n.needsSemicolon semicolon [] = true := by
      simp [Node.needsSemicolon, hset]
    have hbehind : after ++ tail = ";" ++ (rest ++ closing) := by
      have hboth := hprinted.symm.trans hclosing
      rw [if_neg hneeds, Node.textAll_nil, htext, String.empty_append, String.empty_append] at hboth
      simp only [String.append_assoc, String.append_right_inj] at hboth
      exact hboth
    have hfirst : (after.toList ++ tail.toList).head? = some ';' := by
      rw [← String.toList_append, hbehind, String.toList_append]
      rfl
    cases hafter : after.toList with
    | nil =>
      rw [hafter, List.nil_append] at hfirst
      exact absurd (htail _ hfirst) (by decide)
    | cons c cs =>
      rw [hafter] at hfirst hblanks
      have hblank := hblanks c List.mem_cons_self
      rw [Option.some.inj hfirst] at hblank
      exact absurd hblank (by decide)

/-! ## What the flags tell -/

theorem Stores.leaf?_eq_some_iff {a : Arena} {id : NodeId} {l : Leaf}
    (h : a.Stores container id n) : a.leaf? id = some l ↔ ∃ source, n = .leaf source l := by
  unfold Arena.leaf?
  cases n with
  | leaf source l' =>
    rw [Stores] at h
    simp [h]
  | block source head children after semicolon =>
    rw [Stores] at h
    simp [h.1]

theorem StoresAll.forall_numbers_iff {a : Arena} {P : NodeId → Prop} {Q : Node → Prop}
    (h : a.StoresAll container first ns)
    (hPQ : ∀ id, ∀ n ∈ ns, a.Stores container id n → (P id ↔ Q n)) :
    (∀ id ∈ Node.numbers first ns, P id) ↔ ∀ n ∈ ns, Q n := by
  induction ns generalizing first with
  | nil => simp [Node.numbers]
  | cons n ns ih =>
    rw [StoresAll] at h
    rw [Node.numbers, List.forall_mem_cons, List.forall_mem_cons,
      hPQ first n List.mem_cons_self h.1,
      ih h.2 fun id m hm ↦ hPQ id m (List.mem_cons_of_mem n hm)]

theorem Siblings.kind_mem (h : parse options text = .ok tree)
    (hsiblings : Siblings tree container body start first ns after semicolon)
    (hbody : (Arena.ofTree tree).body? container = some body) :
    ∀ n ∈ ns, n.kind ∈ body.kinds := by
  refine (hsiblings.storesAll.forall_numbers_iff fun id n _ hn ↦ ?_).mp
    fun id hid ↦ kind_mem_of_parse h hbody hsiblings.children? hid
  cases n with
  | leaf source l =>
    rw [Stores] at hn
    simp [hn, Content.kind, Node.kind]
  | block source head children after semicolon =>
    rw [Stores] at hn
    simp [hn.1, Content.kind, Node.kind]

end

end Arena

namespace Node

theorem isComment_iff {n : Node} :
    n.isComment = true ↔ ∃ source c, n = .leaf source (.comment c) := by
  constructor
  · intro h
    match n, h with
    | .leaf source (.comment c), _ => exact ⟨source, c, rfl⟩
  · rintro ⟨source, c, rfl⟩
    rfl

/-- Among rules the statements are at-rules. -/
theorem exists_statement {n : Node} (hkind : n.kind ∈ BodyKind.rules.kinds)
    (h : n.isStatement = true) : ∃ source p, n = .leaf source (.statement p) := by
  match n, h, hkind with
  | .leaf source (.statement p), _, _ => exact ⟨source, p, rfl⟩
  | .leaf source (.declaration d), _, hkind => simp [kind, Leaf.kind, BodyKind.kinds] at hkind

/-- Among declarations there is nothing else but comments. -/
theorem exists_declaration_or {n : Node} (hkind : n.kind ∈ BodyKind.declarations.kinds) :
    (∃ source d, n = .leaf source (.declaration d)) ∨ n.isComment = true := by
  match n, hkind with
  | .leaf source (.declaration d), _ => exact .inl ⟨source, d, rfl⟩
  | .leaf source (.comment c), _ => exact .inr rfl
  | .leaf source (.statement p), hkind => simp [kind, Leaf.kind, BodyKind.kinds] at hkind
  | .block source head children after semicolon, hkind =>
    cases head <;> simp [kind, Head.kind, BodyKind.kinds] at hkind

end Node

namespace Arena

section

variable {options : Options} {text : String} {tree : Tree} {container : Container}
variable {start : Position} {first : NodeId} {ns : List Node} {after : String} {semicolon : Bool}

theorem StoresAll.forall_comment_iff {a : Arena} (h : a.StoresAll container first ns) :
    (∀ id ∈ Node.numbers first ns, ∃ c, a.leaf? id = some (.comment c)) ↔
      ∀ n ∈ ns, n.isComment = true := by
  refine h.forall_numbers_iff fun id n _ hn ↦ ?_
  simp only [hn.leaf?_eq_some_iff, Node.isComment_iff]
  exact exists_comm

theorem StoresAll.forall_not_declaration_iff {a : Arena} (h : a.StoresAll container first ns)
    (hkinds : ∀ n ∈ ns, n.kind ∈ BodyKind.declarations.kinds) :
    (∀ id ∈ Node.numbers first ns, ∀ d, a.leaf? id ≠ some (.declaration d)) ↔
      ∀ n ∈ ns, n.isComment = true := by
  refine h.forall_numbers_iff fun id n hmem hn ↦ ?_
  simp only [ne_eq, hn.leaf?_eq_some_iff]
  obtain ⟨source, d, rfl⟩ | hcomment := Node.exists_declaration_or (hkinds n hmem)
  · simp [Node.isComment, Leaf.isComment]
  · refine iff_of_true ?_ hcomment
    rintro d ⟨source, rfl⟩
    contradiction

/-- Among rules the flag is about the last node but for comments. -/
theorem Siblings.rules_iff (h : parse options text = .ok tree)
    (hsiblings : Siblings tree container .rules start first ns after semicolon)
    (hfits : FlagFits options.strict (tokenize text) .rules start ns after semicolon)
    (hkinds : ∀ n ∈ ns, n.kind ∈ BodyKind.rules.kinds) :
    semicolon = true ↔ ∃ front id behind p, Node.numbers first ns = front ++ id :: behind ∧
      (Arena.ofTree tree).leaf? id = some (.statement p) ∧
      (∀ other ∈ behind, ∃ c, (Arena.ofTree tree).leaf? other = some (.comment c)) ∧
      (Arena.ofTree tree).EndsAtSemicolon (withoutMark text) id := by
  have hstores := hsiblings.storesAll
  constructor
  · intro hset
    obtain ⟨n, hn, hstatement⟩ := hfits.rules rfl hset
    obtain ⟨-, comments, front, hreverse, hcomments⟩ := List.find?_eq_some_iff_append.mp hn
    have hsplit : ns = front.reverse ++ n :: comments.reverse := by
      simpa using congrArg List.reverse hreverse
    have hbehind : ∀ m ∈ comments.reverse, m.isComment = true := by simpa using hcomments
    have hends := (hsiblings.endsAtSemicolon_iff h hfits hsplit hstatement hbehind).mpr hset
    obtain ⟨source, p, rfl⟩ := Node.exists_statement (hkinds n (by simp [hsplit])) hstatement
    rw [hsplit, storesAll_append_iff, StoresAll] at hstores
    exact ⟨_, _, _, p, by rw [hsplit, Node.numbers_append]; rfl,
      hstores.2.1.leaf?_eq_some_iff.mpr ⟨source, rfl⟩,
      hstores.2.2.forall_comment_iff.mpr hbehind, hends⟩
  · rintro ⟨front, id, behind, p, hnumbers, hleaf, hbehind, hends⟩
    obtain ⟨ns', n, ms, hsplit, rfl, rfl, rfl⟩ := Node.exists_of_numbers_eq hnumbers
    rw [hsplit, storesAll_append_iff, StoresAll] at hstores
    obtain ⟨source, rfl⟩ := hstores.2.1.leaf?_eq_some_iff.mp hleaf
    exact (hsiblings.endsAtSemicolon_iff h hfits hsplit rfl
      (hstores.2.2.forall_comment_iff.mp hbehind)).mp hends

/-- Among declarations it is about the last of them. -/
theorem Siblings.declared_iff (h : parse options text = .ok tree)
    (hsiblings : Siblings tree container .declarations start first ns after semicolon)
    (hfits : FlagFits options.strict (tokenize text) .declarations start ns after semicolon)
    (hkinds : ∀ n ∈ ns, n.kind ∈ BodyKind.declarations.kinds) {front behind : List NodeId}
    {id : NodeId} {d : Declaration} (hnumbers : Node.numbers first ns = front ++ id :: behind)
    (hleaf : (Arena.ofTree tree).leaf? id = some (.declaration d))
    (hbehind : ∀ other ∈ behind, ∀ d, (Arena.ofTree tree).leaf? other ≠ some (.declaration d)) :
    semicolon = true ↔ (Arena.ofTree tree).EndsAtSemicolon (withoutMark text) id := by
  have hstores := hsiblings.storesAll
  obtain ⟨ns', n, ms, hsplit, rfl, rfl, rfl⟩ := Node.exists_of_numbers_eq hnumbers
  rw [hsplit, storesAll_append_iff, StoresAll] at hstores
  obtain ⟨source, rfl⟩ := hstores.2.1.leaf?_eq_some_iff.mp hleaf
  have hcomments := (hstores.2.2.forall_not_declaration_iff fun m hm ↦
    hkinds m (by simp [hsplit, hm])).mp hbehind
  exact (hsiblings.endsAtSemicolon_iff h hfits hsplit rfl hcomments).symm

/-- Where there is no declaration, it is about the tokens between the braces. -/
theorem Siblings.undeclared (hsiblings :
      Siblings tree container .declarations start first ns after semicolon)
    (hfits : FlagFits options.strict (tokenize text) .declarations start ns after semicolon)
    (hkinds : ∀ n ∈ ns, n.kind ∈ BodyKind.declarations.kinds)
    (hnone : ∀ id ∈ Node.numbers first ns, ∀ d,
      (Arena.ofTree tree).leaf? id ≠ some (.declaration d)) :
    ∃ id entry, container = .node id ∧ Arena.entry? (Arena.ofTree tree) id = some entry ∧
      (semicolon = true ↔ ∃ stretch ∈ stretchesEnded
        (tokensInside (tokenize text) entry.source.position), IsColonless stretch) ∧
      (options.strict = true → semicolon = false) := by
  have hcomments := (hsiblings.storesAll.forall_not_declaration_iff hkinds).mp hnone
  obtain ⟨hflag, hstrict⟩ := hfits.undeclared rfl fun n hn ↦
    Node.isStatement_of_isComment (hcomments n hn)
  generalize hbody : BodyKind.declarations = body at hsiblings
  cases hsiblings with
  | root => contradiction
  | node hblock =>
    rw [Stores] at hblock
    exact ⟨_, _, rfl, hblock.1, hflag, hstrict⟩

end

end Arena

open Arena

/-- In the arena of a parsed text, the flag of a container tells whether a semicolon directly
follows its last statement. Nothing between statements changes it, and no statement that is stray:
neither when it ends, nor when the block is closed behind it. -/
theorem semicolon_of_parse (options : Options) (text : String) (tree : Tree)
    (h : parse options text = .ok tree) :
    let a := Arena.ofTree tree
    (∀ container body, a.body? container = some body → ∃ children semicolon,
      a.children? container = some children ∧ a.semicolon? container = some semicolon ∧
        a.FlagTells options text container body children semicolon) ∧
    (∀ context s t s', State.step context s t = .ok s' →
      t.kind = .space ∨ t.kind = .comment ∨ t.kind = .semicolon ∧ s.statement = none →
      s'.scope.semicolon = s.scope.semicolon) ∧
    (∀ context (s s' : State) statement ending, s.endStatement context statement ending = .ok s' →
      statement.IsStray s.accepts ending → s'.scope.semicolon = s.scope.semicolon) ∧
    ∀ context s t s' frame frames, State.step context s t = .ok s' → s.ended = false →
      t.kind = .closeCurly → s.frames = frame :: frames →
      (∀ statement, s.statement = some statement → statement.IsStray s.accepts .closeCurly) →
      ∃ children after, s'.scope.children =
        .block frame.source frame.head children after s.scope.semicolon ::
          frame.outer.children := by
  refine ⟨fun container body hbody ↦ ?_, fun _ _ _ _ hstep ht ↦ State.semicolon_of_step hstep ht,
    fun _ _ _ _ _ hend hstray ↦ State.semicolon_of_endStatement hend hstray,
    fun _ _ _ _ _ _ hstep hopen hkind hframes hstray ↦
      State.exists_block_of_step hstep hopen hkind hframes hstray⟩
  obtain ⟨start, first, ns, after, semicolon, hsiblings, hfits⟩ := exists_siblings_of_parse h hbody
  have hkinds := hsiblings.kind_mem h hbody
  refine ⟨_, semicolon, hsiblings.children?, hsiblings.semicolon?, ?_, ?_, ?_⟩
  · rintro rfl
    exact hsiblings.rules_iff h hfits hkinds
  · rintro rfl front id behind d hnumbers hleaf hbehind
    exact hsiblings.declared_iff h hfits hkinds hnumbers hleaf hbehind
  · rintro rfl hnone
    exact hsiblings.undeclared hfits hkinds hnone

theorem semicolon_of_parse_colonless :
    ∃ tree, parse {} "@m\x7ba\x7bb;c\x7d@d;/*;*/\x7d" = .ok tree ∧
      (∃ id p, (Arena.ofTree tree).leaf? id = some (.statement p) ∧
        (Arena.ofTree tree).EndsAtSemicolon "@m\x7ba\x7bb;c\x7d@d;/*;*/\x7d" id) ∧
      ∃ entry, Arena.entry? (Arena.ofTree tree) 1 = some entry ∧
        ∃ stretch ∈ stretchesEnded (tokensInside (tokenize "@m\x7ba\x7bb;c\x7d@d;/*;*/\x7d")
          entry.source.position), IsColonless stretch := by
  let text := "@m\x7ba\x7bb;c\x7d@d;/*;*/\x7d"
  have hfound : ((parse {} text).toOption.map fun tree ↦
      ([Container.node 0, .node 1].map fun container ↦
        ((Arena.ofTree tree).body? container, (Arena.ofTree tree).semicolon? container),
        (Arena.ofTree tree).children? (.node 1))) =
      some ([(some .rules, some true), (some .declarations, some true)], some []) := by
    decide +kernel
  obtain ⟨tree, htree, hfound⟩ := exists_of_toOption hfound
  simp only [List.map_cons, List.map_nil, Prod.mk.injEq, List.cons.injEq] at hfound
  obtain ⟨⟨⟨hrules, hset⟩, ⟨hdeclarations, hset'⟩, -⟩, hnone⟩ := hfound
  have hall := (semicolon_of_parse {} text tree htree).1
  obtain ⟨children, semicolon, -, hsemicolon, htells⟩ := hall _ _ hrules
  obtain rfl := Option.some.inj (hset.symm.trans hsemicolon)
  obtain ⟨front, id, behind, p, -, hleaf, -, hends⟩ := (htells.rules rfl).mp rfl
  have hmark : withoutMark text = text := by decide +kernel
  rw [hmark] at hends
  obtain ⟨children', semicolon', hchildren', hsemicolon', htells'⟩ := hall _ _ hdeclarations
  obtain rfl := Option.some.inj (hset'.symm.trans hsemicolon')
  obtain rfl := Option.some.inj (hnone.symm.trans hchildren')
  obtain ⟨c, entry, hc, hentry, hflag, -⟩ := htells'.undeclared rfl fun _ h ↦ nomatch h
  obtain rfl := Container.node.inj hc
  exact ⟨tree, htree, ⟨id, p, hleaf, hends⟩, entry, hentry, hflag.mp rfl⟩

end Stylesheet
