import Stylesheet.Proofs.Node.Siblings
import Stylesheet.Proofs.Parse.Gist

/-!
# Written trees

A tree is written if its texts can be read as what its nodes say: each statement and each head is
spelled by tokens, with blanks and semicolons in front of it, and a comment is one token. The tokens
of a node are the same wherever the node stands, as long as what follows it ends words
(`Delimits`), so the children of a block can be put in another order.
-/

namespace Stylesheet

open Text Grammar Piece

/-- Blanks and semicolons between nodes. -/
def IsGap (cs : List Char) : Prop :=
  ∀ c ∈ cs, isBlank c = true ∨ c = ';'

/-- No statement and no head goes on with the text. -/
def Delimits (behind : List Char) : Prop :=
  ∀ c ∈ behind.head?, isBlank c = true ∨ c = ';' ∨ c = '{' ∨ c = '}'

/-- The text is that of the tokens with a gap in front and blanks behind. The tokens are read again
in front of every text that fits. -/
structure Spelled (fits : List Char → Prop) (text : List Char) (ts : List Token) : Prop where
  held : Held ts
  firm : ∀ t ∈ ts, t.piece.Firm
  trimmed : ∀ t ∈ ts.getLast?, t.kind ≠ .space
  parts : ∃ gap blanks, text = gap ++ join (ts.map Token.piece) ++ blanks ∧ IsGap gap ∧
    (∀ c ∈ blanks, isBlank c = true) ∧ (ts = [] → blanks = []) ∧
      ∀ behind, fits behind → Chained (ts.map Token.piece) (blanks ++ behind)

def Leaf.Written (fits : List Char → Prop) (kind : BodyKind) : Leaf → Prop
  | comment c => ∃ gap t, (c.addTo "").toList = gap ++ t.text.toList ∧ IsGap gap ∧
      t.kind = .comment ∧ (∀ behind, t.piece.Leads behind) ∧ t.unclosed = false ∧
        (Comment.ofToken "" t).gist = c.gist
  | l => ∃ ts, Spelled fits (l.addTo "").toList ts ∧
      (Leaf.ofTokens? kind ts).map Leaf.gist = some l.gist

def Head.Written (head : Head) : Prop :=
  ∃ ts, Spelled Delimits (head.addTo "").toList ts ∧ (Head.ofTokens ts).gist = head.gist

namespace Node

/-- The node can stand in a list of that kind. -/
inductive Written : BodyKind → Node → Prop
  | leaf {kind : BodyKind} {source : Source} {l : Leaf} (h : l.Written Delimits kind) :
    Written kind (.leaf source l)
  | block {source : Source} {head : Head} {children : List Node} {after : String}
      {semicolon : Bool} (hhead : head.Written) (hchildren : ∀ n ∈ children, Written head.body n)
      (hafter : IsGap after.toList) (hapart : Apart semicolon children) :
    Written .rules (.block source head children after semicolon)

theorem written_leaf_iff {kind : BodyKind} {source : Source} {l : Leaf} :
    Written kind (.leaf source l) ↔ l.Written Delimits kind := by
  constructor
  · intro h
    cases h with
    | leaf h => exact h
  · exact .leaf

end Node

/-- At the end of the text a statement is in front of what is behind it and of nothing else. -/
def Tree.Written (t : Tree) : Prop :=
  IsGap t.after.toList ∧
    ((∀ n ∈ t.rules, n.Written .rules) ∧ Node.Apart t.semicolon t.rules ∨
      ∃ front source l, t.rules = front ++ [.leaf source l] ∧ (∀ n ∈ front, n.Written .rules) ∧
        t.semicolon = false ∧ l.isComment = false ∧ l.Written (· = t.after.toList) .rules)

/-! ## Gaps -/

section

variable {cs ds behind : List Char}

theorem isGap_nil : IsGap [] := fun _ h ↦ nomatch h

theorem isGap_append (hcs : IsGap cs) (hds : IsGap ds) : IsGap (cs ++ ds) :=
  List.forall_mem_append.mpr ⟨hcs, hds⟩

theorem isGap_of_blanks (h : ∀ c ∈ cs, isBlank c = true) : IsGap cs :=
  fun c hc ↦ .inl (h c hc)

theorem head?_dropLeadingBlanks_append (cs : List Char)
    (hbehind : ∀ c ∈ behind.head?, isBlank c = false) :
    ∀ c ∈ (dropLeadingBlanks cs ++ behind).head?, isBlank c = false := by
  have hplain := List.head?_dropWhile_not isBlank cs
  unfold dropLeadingBlanks
  cases hdrop : cs.dropWhile isBlank with
  | nil => exact hbehind
  | cons d ds =>
    rw [hdrop] at hplain
    simpa using hplain

theorem IsGap.delimits (h : IsGap cs) (hbehind : Delimits behind) : Delimits (cs ++ behind) := by
  cases cs with
  | nil => exact hbehind
  | cons c cs =>
    intro d hd
    obtain rfl := Option.some.inj hd
    exact (h c List.mem_cons_self).imp_right .inl

end

/-- A gap is cut into white space and semicolons, in front of everything but more white space. -/
theorem exists_chained_gap {cs : List Char} (h : IsGap cs) :
    ∃ ps, join ps = cs ∧ (∀ p ∈ ps, (p.kind = .space ∨ p.kind = .semicolon) ∧ p.closed = true) ∧
      ∀ behind, (∀ c ∈ behind.head?, isBlank c = false) → Chained ps behind := by
  match cs, h with
  | [], _ => exact ⟨[], rfl, fun _ h ↦ (nomatch h), fun _ _ ↦ trivial⟩
  | c :: cs, h =>
    by_cases hblank : isBlank c = true
    · have hsplit := leadingBlanks_append_drop (c :: cs)
      have hne : leadingBlanks (c :: cs) ≠ [] := by simp [leadingBlanks, hblank]
      have hshorter : (dropLeadingBlanks (c :: cs)).length < (c :: cs).length := by
        have hlength := congrArg List.length hsplit
        rw [List.length_append] at hlength
        have hpos := List.length_pos_iff.mpr hne
        omega
      have hrest : IsGap (dropLeadingBlanks (c :: cs)) := fun d hd ↦
        h d (hsplit ▸ List.mem_append_right _ hd)
      obtain ⟨ps, hjoin, hkinds, hps⟩ := exists_chained_gap hrest
      refine ⟨⟨.space, leadingBlanks (c :: cs), true⟩ :: ps, ?_,
        List.forall_mem_cons.mpr ⟨⟨.inl rfl, rfl⟩, hkinds⟩,
        fun behind hbehind ↦ ⟨?_, hps _ hbehind⟩⟩
      · rw [join_cons, hjoin]
        exact hsplit
      · rw [hjoin]
        exact leads_space hne (fun _ ↦ isBlank_of_mem_leadingBlanks)
          (head?_dropLeadingBlanks_append _ hbehind)
    · obtain ⟨hfirst, hcs⟩ := List.forall_mem_cons.mp h
      obtain rfl := hfirst.resolve_left hblank
      obtain ⟨ps, hjoin, hkinds, hps⟩ := exists_chained_gap hcs
      refine ⟨⟨.semicolon, [';'], true⟩ :: ps, ?_,
        List.forall_mem_cons.mpr ⟨⟨.inr rfl, rfl⟩, hkinds⟩, fun behind hbehind ↦
          ⟨leads_single rfl _, hps _ hbehind⟩⟩
      rw [join_cons, hjoin]
      rfl
termination_by cs.length
decreasing_by
  · exact hshorter
  · exact Nat.lt_succ_self _

section

variable {ts : List Token} {behind later : List Char}

/-- What does not end with white space stops at everything that ends words. -/
theorem Piece.Chained.delimited (h : Chained (ts.map Token.piece) behind) (hne : behind ≠ [])
    (hfirm : ∀ t ∈ ts, t.piece.Firm) (htrimmed : ∀ t ∈ ts.getLast?, t.kind ≠ .space)
    (hlater : Delimits later) : Chained (ts.map Token.piece) later := by
  refine h.exchange (List.forall_mem_map.mpr hfirm) fun p hp ↦ ⟨fun _ ↦ hne, ?_⟩
  rw [List.getLast?_map] at hp
  obtain ⟨t, ht, rfl⟩ := Option.map_eq_some_iff.mp hp
  have hspace : t.piece.kind ≠ .space := htrimmed t ht
  unfold StopsAt
  cases hkind : t.piece.kind with
  | space => contradiction
  | word =>
    intro c hc
    rcases hlater c hc with h | rfl | rfl | rfl <;> simp [Lexeme.endsWord, *]
  | atWord =>
    intro c hc
    rcases hlater c hc with h | rfl | rfl | rfl <;> simp [Lexeme.endsAtWord, *]
  | _ => trivial

/-- Of two pieces of white space one would go on with the other. -/
theorem not_space_of_chained {t u : Token}
    (h : Chained ((ts ++ [t, u]).map Token.piece) behind) (hu : u.kind = .space) :
    t.kind ≠ .space := by
  intro ht
  rw [List.map_append, chained_append] at h
  obtain ⟨hfirst, hsecond, -⟩ := h.2
  rw [List.map_cons, join_cons, List.append_assoc] at hfirst
  have hhead : ∀ c ∈ u.piece.text.head?, isBlank c = true := fun c hc ↦
    (hsecond.isBlank_head_iff hc).mpr hu
  have hstops := hfirst.stopsAt hsecond (by simp [Token.piece, hu]) []
  have hkind : t.piece.kind = .space := ht
  obtain ⟨c, cs, hcs⟩ := List.exists_cons_of_ne_nil hsecond.text_ne_nil
  rw [StopsAt, hkind, List.append_nil, hcs] at hstops
  rw [hcs] at hhead
  have hblank := hhead c rfl
  rw [hstops c rfl] at hblank
  contradiction

theorem splitTrailingSpace_cases (ts : List Token) :
    (splitTrailingSpace ts = (ts, []) ∧ ∀ t ∈ ts.getLast?, t.kind ≠ .space) ∨
      ∃ front t, ts = front ++ [t] ∧ t.kind = .space ∧ splitTrailingSpace ts = (front, [t]) := by
  cases hlast : ts.getLast? with
  | none =>
    rw [List.getLast?_eq_none_iff.mp hlast]
    exact .inl ⟨rfl, fun _ h ↦ nomatch h⟩
  | some t =>
    obtain ⟨front, rfl⟩ := List.getLast?_eq_some_iff.mp hlast
    by_cases hspace : t.kind = .space
    · exact .inr ⟨front, t, rfl, hspace, splitTrailingSpace_concat hspace⟩
    · have htrimmed : ∀ u ∈ some t, u.kind ≠ .space := by simpa using hspace
      exact .inl ⟨splitTrailingSpace_of_getLast? (hlast ▸ htrimmed), htrimmed⟩

/-- Behind white space that is told apart at the end there is no more of it. -/
theorem trimmed_splitTrailingSpace (h : Chained (ts.map Token.piece) behind) :
    ∀ t ∈ (splitTrailingSpace ts).1.getLast?, t.kind ≠ .space := by
  obtain ⟨hsplit, htrimmed⟩ | ⟨front, u, rfl, hspace, hsplit⟩ := splitTrailingSpace_cases ts
  · rwa [hsplit]
  · rw [hsplit]
    intro t ht
    obtain ⟨more, rfl⟩ := List.getLast?_eq_some_iff.mp ht
    rw [List.append_assoc] at h
    exact not_space_of_chained h hspace

theorem Leaf.gist_ofTokens?_splitTrailingSpace (kind : BodyKind)
    (h : Chained (ts.map Token.piece) behind) :
    (Leaf.ofTokens? kind (splitTrailingSpace ts).1).map Leaf.gist =
      (Leaf.ofTokens? kind ts).map Leaf.gist := by
  have htrimmed := trimmed_splitTrailingSpace h
  obtain ⟨hsplit, -⟩ | ⟨front, t, rfl, hspace, hsplit⟩ := splitTrailingSpace_cases ts
  · rw [hsplit]
  · rw [hsplit] at htrimmed ⊢
    rw [List.map_append, chained_append] at h
    exact (Leaf.gist_ofTokens?_concat kind hspace (h.2.1.isBlank_of_space hspace) htrimmed).symm

theorem Head.gist_ofTokens_splitTrailingSpace (h : Chained (ts.map Token.piece) behind) :
    (Head.ofTokens (splitTrailingSpace ts).1).gist = (Head.ofTokens ts).gist := by
  have htrimmed := trimmed_splitTrailingSpace h
  obtain ⟨hsplit, -⟩ | ⟨front, t, rfl, hspace, hsplit⟩ := splitTrailingSpace_cases ts
  · rw [hsplit]
  · rw [hsplit] at htrimmed ⊢
    exact (Head.gist_ofTokens_concat hspace htrimmed).symm

theorem Grammar.Held.first_ne_space {t : Token} (h : Held (t :: ts)) : t.kind ≠ .space := by
  intro hspace
  exact Token.not_isBlank_of_starts (h.starts t rfl) (.inl hspace)

theorem Grammar.Held.of_append {us : List Token} (h : Held (ts ++ us)) : Held ts where
  plain t ht := h.plain t (List.mem_append_left us ht)
  starts t ht := h.starts t (by rw [List.head?_append, Option.mem_def.mp ht]; rfl)

/-- Tokens that have been read spell their text, with white space at the end told apart. -/
theorem spelled_of_chained {gap : List Char} (hgap : IsGap gap) (hts : Held ts)
    (hfirm : ∀ t ∈ ts, t.piece.Firm) (h : Chained (ts.map Token.piece) behind)
    (hne : behind ≠ []) :
    Spelled Delimits (gap ++ join (ts.map Token.piece)) (splitTrailingSpace ts).1 := by
  have htrimmed := trimmed_splitTrailingSpace h
  obtain ⟨hsplit, -⟩ | ⟨front, t, rfl, hspace, hsplit⟩ := splitTrailingSpace_cases ts
  · rw [hsplit] at htrimmed ⊢
    refine ⟨hts, hfirm, htrimmed, gap, [], (List.append_nil _).symm, hgap, by simp, fun _ ↦ rfl, ?_⟩
    exact fun later hlater ↦ h.delimited hne hfirm htrimmed hlater
  · rw [hsplit] at htrimmed ⊢
    have hfront : ∀ t ∈ front, t.piece.Firm := fun u hu ↦ hfirm u (List.mem_append_left _ hu)
    rw [List.map_append, chained_append] at h
    have hblanks := h.2.1.isBlank_of_space hspace
    refine ⟨hts.of_append, hfront, htrimmed, gap, t.text.toList, ?_, hgap, hblanks, ?_, ?_⟩
    · simp [Token.piece]
    · rintro rfl
      exact absurd hspace hts.first_ne_space
    · intro later hlater
      have hbehind : join ([t].map Token.piece) ++ behind ≠ [] := by simp [hne]
      exact h.1.delimited hbehind hfront htrimmed ((isGap_of_blanks hblanks).delimits hlater)

theorem toList_keptText (h : ∀ t ∈ ts, t.unclosed = false) :
    (keptText ts).toList = join (ts.map Token.piece) := by
  induction ts with
  | nil => rfl
  | cons t ts ih =>
    obtain ⟨ht, hts⟩ := List.forall_mem_cons.mp h
    rw [keptText_cons, String.toList_append, ih hts, Token.kept_of_closed ht]
    rfl

end

end Stylesheet
