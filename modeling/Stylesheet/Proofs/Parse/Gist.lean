import Stylesheet.Proofs.Node.Gist
import Stylesheet.Proofs.Parse.Bare
import Stylesheet.Proofs.Parse.Grammar
import Stylesheet.Proofs.Token.Chain

/-!
# What statements say

The gist of a node that a statement makes is settled by the tokens of the statement and the list it
stands in (`Parse.State.gist_leaf?`, `Parse.State.gist_blockHead`). The places of the tokens are of
no account, and neither is white space behind them.
-/

namespace Stylesheet

open Text Grammar

/-- The node without children that the tokens make in a list of that kind. -/
def Leaf.ofTokens? : BodyKind → List Token → Option Leaf
  | .declarations, ts => (Declaration.ofTokens? "" ts).map .declaration
  | .rules, t :: ts =>
    if t.kind = .atWord then some (.statement (Prelude.ofTokens "" t ts)) else none
  | .rules, [] => none

/-- The head that the tokens make in front of a block. -/
def Head.ofTokens : List Token → Head
  | t :: ts =>
    if t.kind = .atWord then
      let p := Prelude.ofTokens "" t ts
      .atRule p (bodyKind p.name)
    else .rule (Selector.ofTokens "" (t :: ts))
  | [] => .rule (Selector.ofTokens "" [])

/-! ## Places -/

/-- The piece as a token at the start of a text. -/
def Piece.token (p : Piece) : Token where
  kind := p.kind
  text := String.ofList p.text
  span := ⟨0, 0⟩
  start := {}
  stop := {}
  unclosed := !p.closed

theorem Token.keeps_unplaced : Keeps fun t ↦ t.piece.token where
  kind _ := rfl
  kept t := by simp [kept, piece, Piece.token]

section

variable {t u : Token} {ts us : List Token}

theorem map_token_piece (h : us.map Token.piece = ts.map Token.piece) :
    us.map (fun t ↦ t.piece.token) = ts.map fun t ↦ t.piece.token := by
  have hmap := congrArg (List.map Piece.token) h
  rwa [List.map_map, List.map_map] at hmap

theorem Selector.ofTokens_congr (before : String) (h : us.map Token.piece = ts.map Token.piece) :
    Selector.ofTokens before us = Selector.ofTokens before ts := by
  rw [← Selector.ofTokens_map Token.keeps_unplaced, map_token_piece h,
    Selector.ofTokens_map Token.keeps_unplaced]

theorem Declaration.ofTokens?_congr (before : String)
    (h : us.map Token.piece = ts.map Token.piece) :
    Declaration.ofTokens? before us = Declaration.ofTokens? before ts := by
  rw [← Declaration.ofTokens?_map Token.keeps_unplaced, map_token_piece h,
    Declaration.ofTokens?_map Token.keeps_unplaced]

theorem Prelude.ofTokens_congr (before : String) (hkind : t.kind = .atWord)
    (hfirst : u.piece = t.piece) (h : us.map Token.piece = ts.map Token.piece) :
    Prelude.ofTokens before u us = Prelude.ofTokens before t ts := by
  have ht : t.kind ≠ .comment := by simp [hkind]
  have hu : u.kind ≠ .comment := by
    rw [show u.kind = t.kind from congrArg Piece.kind hfirst]
    exact ht
  rw [← Prelude.ofTokens_map Token.keeps_unplaced before us hu, map_token_piece h, hfirst,
    Prelude.ofTokens_map Token.keeps_unplaced before ts ht]

/-- Tokens with the same pieces make the same leaf. -/
theorem Leaf.ofTokens?_congr (kind : BodyKind) (h : us.map Token.piece = ts.map Token.piece) :
    Leaf.ofTokens? kind us = Leaf.ofTokens? kind ts := by
  cases kind with
  | declarations => rw [ofTokens?, ofTokens?, Declaration.ofTokens?_congr "" h]
  | rules =>
    cases ts with
    | nil => rw [List.map_eq_nil_iff.mp h]
    | cons t ts =>
      obtain ⟨u, us, rfl, hfirst, hbehind⟩ := List.map_eq_cons_iff.mp h
      have hkind : u.kind = t.kind := congrArg Piece.kind hfirst
      rw [ofTokens?, ofTokens?, hkind]
      by_cases hrule : t.kind = .atWord
      · rw [if_pos hrule, if_pos hrule, Prelude.ofTokens_congr "" hrule hfirst hbehind]
      · rw [if_neg hrule, if_neg hrule]

theorem Head.ofTokens_congr (h : us.map Token.piece = ts.map Token.piece) :
    Head.ofTokens us = Head.ofTokens ts := by
  have hselector := Selector.ofTokens_congr "" h
  cases ts with
  | nil => rw [List.map_eq_nil_iff.mp h]
  | cons t ts =>
    obtain ⟨u, us, rfl, hfirst, hbehind⟩ := List.map_eq_cons_iff.mp h
    have hkind : u.kind = t.kind := congrArg Piece.kind hfirst
    rw [ofTokens, ofTokens, hkind, hselector]
    by_cases hrule : t.kind = .atWord
    · rw [if_pos hrule, if_pos hrule, Prelude.ofTokens_congr "" hrule hfirst hbehind]
    · rw [if_neg hrule, if_neg hrule]

theorem Comment.ofToken_eq_of_piece (before : String) (h : u.piece = t.piece) :
    Comment.ofToken before u = Comment.ofToken before t := by
  have htext : u.text.toList = t.text.toList := congrArg Piece.text h
  have hunclosed : u.unclosed = t.unclosed := by simpa [Token.piece] using congrArg Piece.closed h
  have hcontent : Comment.content u = Comment.content t := by
    rw [Comment.content, Comment.content, htext, hunclosed]
  rw [Comment.ofToken, Comment.ofToken, hcontent]

theorem held_congr (h : us.map Token.piece = ts.map Token.piece) (hts : Held ts) : Held us where
  plain u hu := by
    obtain ⟨t, ht, hpiece⟩ := List.mem_map.mp (h ▸ List.mem_map_of_mem hu)
    have hkind : t.kind = u.kind := congrArg Piece.kind hpiece
    have hplain := hts.plain t ht
    rwa [Token.IsPlain, hkind] at hplain
  starts u hu := by
    have hheads := congrArg List.head? h
    rw [List.head?_map, List.head?_map, Option.mem_def.mp hu] at hheads
    obtain ⟨t, ht, hpiece⟩ := Option.map_eq_some_iff.mp hheads.symm
    have hkind : t.kind = u.kind := congrArg Piece.kind hpiece
    have htext : t.text = u.text := String.toList_inj.mp (congrArg Piece.text hpiece)
    have hstarts := hts.starts t ht
    rwa [Token.StartsAt, Token.StartsSelector, hkind, htext] at hstarts

end

/-! ## What is pending -/

theorem Declaration.gist_ofTokens? (before : String) (ts : List Token) :
    (Declaration.ofTokens? before ts).map gist = (Declaration.ofTokens? "" ts).map gist := by
  unfold Declaration.ofTokens?
  cases ts.dropWhile (·.kind ≠ .colon) <;> rfl

namespace Parse.State

variable (context : Context) (s : State)

theorem gist_leaf? (statement : Statement) {ending : Ending}
    (hending : ending ≠ .endOfText ∨ s.accepts = .rules) :
    (s.leaf? statement ending).map Leaf.gist =
      (Leaf.ofTokens? s.accepts statement.tokens).map Leaf.gist := by
  unfold leaf?
  cases haccepts : s.accepts with
  | rules =>
    dsimp only
    rw [Statement.isAtRule, Statement.tokens, Leaf.ofTokens?]
    by_cases hrule : statement.first.kind = .atWord
    · rw [if_pos hrule, if_pos (beq_iff_eq.mpr hrule)]
      rfl
    · rw [if_neg hrule, if_neg (mt beq_iff_eq.mp hrule)]
  | declarations =>
    have hopen : ending ≠ .endOfText := hending.resolve_right (by simp [haccepts])
    have hgist := Declaration.gist_ofTokens? s.scope.pending statement.tokens
    rw [Leaf.ofTokens?, Option.map_map]
    cases hd : Declaration.ofTokens? s.scope.pending statement.tokens with
    | none =>
      rw [hd] at hgist
      rw [Option.map_eq_none_iff.mp hgist.symm]
      simp [hopen]
    | some d =>
      rw [hd, Option.map_some] at hgist
      obtain ⟨d', hd', hsame⟩ := Option.map_eq_some_iff.mp hgist.symm
      rw [hd', Option.map_some, Option.map_some, Function.comp_apply, Leaf.gist, Leaf.gist, hsame]

theorem gist_blockHead (brace : Token) :
    (s.blockHead context brace).2.gist = (Head.ofTokens s.heldTokens).gist := by
  unfold blockHead
  cases hstatement : s.statement with
  | none =>
    rw [heldTokens_none hstatement]
    rfl
  | some statement =>
    rw [heldTokens_some hstatement, Statement.tokens, Head.ofTokens]
    dsimp only
    rw [Statement.isAtRule]
    by_cases hrule : statement.first.kind = .atWord
    · rw [if_pos hrule, if_pos (beq_iff_eq.mpr hrule)]
      rfl
    · rw [if_neg hrule, if_neg (mt beq_iff_eq.mp hrule)]
      rfl

end Parse.State

/-! ## White space at the end -/

section

variable {t u : Token} {ts : List Token}

theorem splitTrailingSpace_concat (ht : t.kind = .space) :
    splitTrailingSpace (ts ++ [t]) = (ts, [t]) := by
  simp [splitTrailingSpace, ht]

theorem splitTrailingSpace_of_getLast? (h : ∀ t ∈ ts.getLast?, t.kind ≠ .space) :
    splitTrailingSpace ts = (ts, []) := by
  unfold splitTrailingSpace
  cases hlast : ts.getLast? with
  | none => rfl
  | some t => exact if_neg (h t hlast)

/-- A space at the end is either the one at the front or stays at the end. -/
theorem splitLeadingSpace_concat (ts : List Token) (ht : t.kind = .space) :
    ∃ us, (splitLeadingSpace (ts ++ [t])).2 = (splitLeadingSpace ts).2 ++ us ∧
      (us = [] ∨ us = [t]) := by
  cases ts with
  | nil => exact ⟨[], by simp [splitLeadingSpace, ht], .inl rfl⟩
  | cons u ts =>
    refine ⟨[t], ?_, .inr rfl⟩
    rw [List.cons_append, splitLeadingSpace, splitLeadingSpace]
    by_cases hu : u.kind = .space
    · rw [if_pos hu, if_pos hu]
    · rw [if_neg hu, if_neg hu]
      rfl

theorem Selector.gist_ofTokens_concat (before : String) (ht : t.kind = .space)
    (htrimmed : ∀ u ∈ ts.getLast?, u.kind ≠ .space) :
    (Selector.ofTokens before (ts ++ [t])).gist = (Selector.ofTokens before ts).gist := by
  rw [ofTokens, ofTokens, splitTrailingSpace_concat ht, splitTrailingSpace_of_getLast? htrimmed]
  rfl

theorem Prelude.gist_ofTokens_concat (before : String) (u : Token) (ht : t.kind = .space)
    (htrimmed : ∀ u ∈ ts.getLast?, u.kind ≠ .space) :
    (Prelude.ofTokens before u (ts ++ [t])).gist = (Prelude.ofTokens before u ts).gist := by
  have hinside : ∀ v ∈ (splitLeadingSpace ts).2.getLast?, v.kind ≠ .space := by
    intro v hv
    apply htrimmed v
    rw [← splitLeadingSpace_append ts, List.getLast?_append, Option.mem_def.mp hv]
    rfl
  have hparams : (splitTrailingSpace (splitLeadingSpace (ts ++ [t])).2).1 =
      (splitTrailingSpace (splitLeadingSpace ts).2).1 := by
    obtain ⟨us, hus, rfl | rfl⟩ := splitLeadingSpace_concat ts ht
    · rw [hus, List.append_nil]
    · rw [hus, splitTrailingSpace_concat ht, splitTrailingSpace_of_getLast? hinside]
  simp only [ofTokens, gist, hparams]

/-- A declaration says the property in front of the first colon and the value behind it. -/
theorem Declaration.gist_ofTokens?_append_cons (before : String) {colon : Token}
    {front behind : List Token} (hfront : ∀ t ∈ front, t.kind ≠ .colon)
    (hcolon : colon.kind = .colon) :
    let value := dropTrailingBlanks (keptText (splitLeadingSpace behind).2).toList
    (Declaration.ofTokens? before (front ++ colon :: behind)).map gist = some
      { before := ""
        prop := keptText (splitTrailingSpace front).1
        between := ""
        value := String.ofList ((splitImportant? value).getD (value, [])).1
        important := (splitImportant? value).isSome
        after := "" } := by
  have hpass : ∀ t ∈ front, decide (t.kind ≠ .colon) = true := by simpa using hfront
  have hdrop : (front ++ colon :: behind).dropWhile (·.kind ≠ .colon) = colon :: behind := by
    rw [List.dropWhile_append_of_pos hpass]
    simp [hcolon]
  have htake : (front ++ colon :: behind).takeWhile (·.kind ≠ .colon) = front := by
    rw [List.takeWhile_append_of_pos hpass]
    simp [hcolon]
  unfold Declaration.ofTokens?
  rw [hdrop, htake]
  rfl

theorem Declaration.gist_ofTokens?_concat (before : String) (ts : List Token)
    (ht : t.kind = .space) (hblank : ∀ c ∈ t.text.toList, isBlank c = true) :
    (Declaration.ofTokens? before (ts ++ [t])).map gist =
      (Declaration.ofTokens? before ts).map gist := by
  have hnot : t.kind ≠ .colon := by simp [ht]
  cases hfind : ts.find? (·.kind = .colon) with
  | none =>
    have hplain : ∀ u ∈ ts, u.kind ≠ .colon := by simpa using hfind
    have hboth : ∀ u ∈ ts ++ [t], u.kind ≠ .colon :=
      List.forall_mem_append.mpr ⟨hplain, by simpa using hnot⟩
    rw [(ofTokens?_eq_none_iff before ts).mpr hplain, (ofTokens?_eq_none_iff before _).mpr hboth]
  | some colon =>
    obtain ⟨hcolon, front, behind, rfl, hfront⟩ := List.find?_eq_some_iff_append.mp hfind
    have hfront : ∀ u ∈ front, u.kind ≠ .colon := by simpa using hfront
    have hcolon : colon.kind = .colon := by simpa using hcolon
    have hvalue : dropTrailingBlanks (keptText (splitLeadingSpace (behind ++ [t])).2).toList =
        dropTrailingBlanks (keptText (splitLeadingSpace behind).2).toList := by
      have hkept : t.kept = t.text := Token.kept_of_kind_ne (by simp [ht])
      obtain ⟨us, hus, rfl | rfl⟩ := splitLeadingSpace_concat behind ht
      · rw [hus, List.append_nil]
      · rw [hus, keptText_append, String.toList_append, keptText_cons, keptText_nil,
          String.append_empty, hkept, dropTrailingBlanks_append_blanks _ hblank]
    rw [List.append_assoc, List.cons_append, gist_ofTokens?_append_cons before hfront hcolon,
      gist_ofTokens?_append_cons before hfront hcolon, hvalue]

/-- White space behind a statement changes nothing in what it says. -/
theorem Leaf.gist_ofTokens?_concat (kind : BodyKind) (ht : t.kind = .space)
    (hblank : ∀ c ∈ t.text.toList, isBlank c = true)
    (htrimmed : ∀ u ∈ ts.getLast?, u.kind ≠ .space) :
    (Leaf.ofTokens? kind (ts ++ [t])).map Leaf.gist = (Leaf.ofTokens? kind ts).map Leaf.gist := by
  cases kind with
  | declarations =>
    have hgist := congrArg (Option.map Leaf.declaration)
      (Declaration.gist_ofTokens?_concat "" ts ht hblank)
    rw [Option.map_map, Option.map_map] at hgist
    rw [ofTokens?, ofTokens?, Option.map_map, Option.map_map]
    exact hgist
  | rules =>
    cases ts with
    | nil => simp [ofTokens?, ht]
    | cons u ts =>
      have hlast : ∀ v ∈ ts.getLast?, v.kind ≠ .space := fun v hv ↦ by
        apply htrimmed v
        rw [List.getLast?_cons, Option.mem_def.mp hv]
        rfl
      rw [List.cons_append, ofTokens?, ofTokens?]
      by_cases hrule : u.kind = .atWord
      · rw [if_pos hrule, if_pos hrule, Option.map_some, Option.map_some, Leaf.gist, Leaf.gist,
          Prelude.gist_ofTokens_concat "" u ht hlast]
      · rw [if_neg hrule, if_neg hrule]

theorem Head.gist_ofTokens_concat (ht : t.kind = .space)
    (htrimmed : ∀ u ∈ ts.getLast?, u.kind ≠ .space) :
    (Head.ofTokens (ts ++ [t])).gist = (Head.ofTokens ts).gist := by
  have hselector := Selector.gist_ofTokens_concat "" ht htrimmed
  cases ts with
  | nil =>
    rw [List.nil_append, ofTokens, if_neg (by simp [ht]), ofTokens, Head.gist, Head.gist]
    exact congrArg Head.rule hselector
  | cons u ts =>
    have hlast : ∀ v ∈ ts.getLast?, v.kind ≠ .space := fun v hv ↦ by
      apply htrimmed v
      rw [List.getLast?_cons, Option.mem_def.mp hv]
      rfl
    rw [List.cons_append, ofTokens, ofTokens]
    by_cases hrule : u.kind = .atWord
    · have hprelude := Prelude.gist_ofTokens_concat "" u ht hlast
      rw [if_pos hrule, if_pos hrule]
      dsimp only
      rw [Head.gist, Head.gist, hprelude]
      rfl
    · rw [if_neg hrule, if_neg hrule, Head.gist, Head.gist]
      exact congrArg Head.rule hselector

end

end Stylesheet
