import Stylesheet.Proofs.Parse.Strict

/-!
# Reading what has been printed

A written tree is read again from its text with the same gists (`Tree.Written.reread`). Each node is
read wherever it stands among others of its container (`Parse.ReadAs`); only the last statement,
where it has no semicolon, is read together with what ends the container (`Parse.EndsAs`).
-/

namespace Stylesheet

open Text Grammar Piece

namespace Parse

/-! ## Runs -/

/-- The tokens are read without a failure or a repair and lead to such a state. -/
structure Runs (context : Context) (s : State) (ts : List Token) (reaches : State → Prop) :
    Prop where
  fatal : s.fatalIn? context ts = none
  repairs : s.repairsIn context ts = []
  reached : reaches (ts.foldl (State.advance context) s)

section

variable {context : Context} {s : State} {t : Token} {ts us : List Token}
variable {P Q : State → Prop}

theorem Runs.nil (h : Q s) : Runs context s [] Q :=
  ⟨rfl, rfl, h⟩

theorem Runs.cons (hfatal : s.fatal? t = none) (hrepair : s.repair? t = none)
    (h : Runs context (s.advance context t) ts Q) : Runs context s (t :: ts) Q where
  fatal := by
    rw [State.fatalIn?, hfatal, h.fatal]
    rfl
  repairs := by
    rw [State.repairsIn, hfatal, hrepair, h.repairs]
    rfl
  reached := h.reached

theorem Runs.append (h : Runs context s ts P) (h' : ∀ s', P s' → Runs context s' us Q) :
    Runs context s (ts ++ us) Q := by
  induction ts generalizing s with
  | nil => exact h' s h.reached
  | cons t ts ih =>
    obtain ⟨hfatal, hlater⟩ := Option.or_eq_none_iff.mp h.fatal
    have hrepairs := h.repairs
    rw [State.repairsIn, hfatal, if_neg (by simp)] at hrepairs
    obtain ⟨hrepair, hrest⟩ := List.append_eq_nil_iff.mp hrepairs
    exact .cons hfatal (Option.toList_eq_nil_iff.mp hrepair) (ih ⟨hlater, hrest, h.reached⟩)

theorem Runs.mono (h : Runs context s ts P) (hPQ : ∀ s', P s' → Q s') : Runs context s ts Q :=
  ⟨h.fatal, h.repairs, hPQ _ h.reached⟩

end

namespace State

variable {context : Context} {s s' s'' : State} {t : Token} {ts us : List Token}
variable {kind : BodyKind} {ending : Ending}

/-- A node of a list of that kind can start here. -/
structure Between (kind : BodyKind) (s : State) : Prop where
  statement : s.statement = none
  ended : s.ended = false
  accepts : s.accepts = kind

/-- The nodes are read, and no statement has been started behind them. -/
structure Adds (s : State) (gists : List Node) (s' : State) : Prop where
  statement : s'.statement = none
  ended : s'.ended = false
  frames : s'.frames = s.frames
  children : s'.scope.children.map Node.gist = gists.reverse ++ s.scope.children.map Node.gist

/-- Nothing is read but the tokens of a statement. -/
structure Holds (s : State) (held : List Token) (s' : State) : Prop where
  tokens : s'.heldTokens = held
  ended : s'.ended = false
  frames : s'.frames = s.frames
  children : s'.scope.children = s.scope.children

/-- What has been started ends with the container, and the nodes are read by then. -/
structure Ends (context : Context) (ending : Ending) (s : State) (gists : List Node) (s' : State) :
    Prop where
  repair : s'.cutRepair? ending = none
  ended : s'.ended = false
  frames : s'.frames = s.frames
  children : (s'.cut context ending).scope.children.map Node.gist =
    gists.reverse ++ s.scope.children.map Node.gist

theorem accepts_congr (h : s'.frames = s.frames) : s'.accepts = s.accepts := by
  rw [accepts, accepts, h]

theorem Adds.between {gists : List Node} (h : s.Adds gists s') (hs : s.Between kind) :
    s'.Between kind :=
  ⟨h.statement, h.ended, (accepts_congr h.frames).trans hs.accepts⟩

theorem Adds.trans {gists gists' : List Node} (h : s.Adds gists s') (h' : s'.Adds gists' s'') :
    s.Adds (gists ++ gists') s'' where
  statement := h'.statement
  ended := h'.ended
  frames := h'.frames.trans h.frames
  children := by rw [h'.children, h.children, List.reverse_append, List.append_assoc]

theorem Adds.ends {gists gists' : List Node} (h : s.Adds gists s')
    (h' : s'.Ends context ending gists' s'') : s.Ends context ending (gists ++ gists') s'' where
  repair := h'.repair
  ended := h'.ended
  frames := h'.frames.trans h.frames
  children := by rw [h'.children, h.children, List.reverse_append, List.append_assoc]

theorem Holds.trans {held held' : List Token} (h : s.Holds held s') (h' : s'.Holds held' s'') :
    s.Holds held' s'' where
  tokens := h'.tokens
  ended := h'.ended
  frames := h'.frames.trans h.frames
  children := h'.children.trans h.children

/-! ## Gaps and statements -/

theorem runs_gap (context : Context) (hnone : s.statement = none) (hopen : s.ended = false)
    (hkinds : ∀ t ∈ ts, t.kind = .space ∨ t.kind = .semicolon) :
    Runs context s ts (s.Holds []) := by
  induction ts generalizing s with
  | nil => exact .nil ⟨heldTokens_none hnone, hopen, rfl, rfl⟩
  | cons t ts ih =>
    obtain ⟨hkind, hkinds⟩ := List.forall_mem_cons.mp hkinds
    have hnot : ¬s.ended = true := ne_true_of_eq_false hopen
    have hfatal : s.fatal? t = none := by
      rcases hkind with h | h <;> simp [fatal?, h]
    have hrepair : s.repair? t = none := by
      rw [repair?, if_neg hnot, hnone]
      rcases hkind with h | h <;> simp [h]
    have hadvance : s.advance context t = s.addText t.text := by
      rw [advance, if_neg hnot]
      rcases hkind with h | h <;> simp [h, readSpace, hnone]
    refine .cons hfatal hrepair ?_
    rw [hadvance]
    have hrest := ih (s := s.addText t.text) hnone hopen hkinds
    exact hrest.mono fun s' h ↦ ⟨h.tokens, h.ended, h.frames, h.children⟩

theorem fatal?_held (hplain : t.IsPlain)
    (hstarts : s.statement = none → t.StartsAt ∨ t.StartsSelector) : s.fatal? t = none := by
  have hopening : ¬(t.kind = .openCurly ∧ s.accepts = .declarations) := fun h ↦ hplain.1 h.1
  have hnamed : ¬(t.kind = .atWord ∧ s.statement.isNone ∧ t.text = "@") := by
    rintro ⟨hkind, hnone, htext⟩
    rcases hstarts (Option.isNone_iff_eq_none.mp hnone) with ⟨-, hlength⟩ | h | h | h | h
    · rw [htext] at hlength
      exact absurd hlength (by decide)
    all_goals simp [hkind] at h
  rw [fatal?, if_neg hopening, if_neg hnamed, ite_self]

theorem runs_hold (context : Context) (hopen : s.ended = false)
    (hheld : Held (s.heldTokens ++ ts)) (hclosed : ∀ t ∈ ts, t.unclosed = false) :
    Runs context s ts (s.Holds (s.heldTokens ++ ts)) := by
  induction ts generalizing s with
  | nil => exact .nil ⟨(List.append_nil _).symm, hopen, rfl, rfl⟩
  | cons t ts ih =>
    obtain ⟨ht, hclosed⟩ := List.forall_mem_cons.mp hclosed
    have hplain : t.IsPlain := hheld.plain t (by simp)
    have hstarts (hnone : s.statement = none) : t.StartsAt ∨ t.StartsSelector := by
      rw [heldTokens_none hnone] at hheld
      exact hheld.starts t rfl
    have hadvance : s.advance context t = s.hold t :=
      advance_plain context hopen hplain fun hnone ↦ Token.not_isBlank_of_starts (hstarts hnone)
    refine .cons (fatal?_held hplain hstarts) (repair?_plain hopen hplain ht) ?_
    have htokens : (s.hold t).heldTokens ++ ts = s.heldTokens ++ t :: ts := by
      rw [heldTokens_hold, List.append_assoc]
      rfl
    have hrest := ih (s := s.hold t) ((ended_hold s t).trans hopen) (htokens ▸ hheld) hclosed
    rw [htokens] at hrest
    rw [hadvance]
    refine hrest.mono fun s' h ↦ ⟨h.tokens, h.ended, h.frames.trans ?_, h.children.trans ?_⟩
    all_goals
      unfold hold
      cases s.statement <;> rfl

end State

end Parse

theorem Grammar.Held.append {ts us : List Token} (h : Held ts) (hus : Plain us)
    (hne : ts = [] → us = []) : Held (ts ++ us) where
  plain := List.forall_mem_append.mpr ⟨h.plain, hus⟩
  starts t ht := by
    cases ts with
    | nil =>
      rw [hne rfl] at ht
      contradiction
    | cons first more => exact h.starts t ht

/-- A space or nothing. -/
def IsSpace (ts : List Token) : Prop :=
  ts = [] ∨ ∃ t, ts = [t] ∧ t.kind = .space ∧ t.unclosed = false ∧
    ∀ c ∈ t.text.toList, isBlank c = true

namespace Parse

namespace State

variable {context : Context} {s s' : State} {core : List Token}

/-- A statement has been started that says what the tokens say. -/
structure Starts (s : State) (core : List Token) (s' : State) : Prop where
  held : Held s'.heldTokens
  ended : s'.ended = false
  frames : s'.frames = s.frames
  children : s'.scope.children = s.scope.children
  split : ∃ ts space, s'.heldTokens = ts ++ space ∧ ts.map Token.piece = core.map Token.piece ∧
    IsSpace space

theorem runs_start (context : Context) {gap ts space : List Token} (hnone : s.statement = none)
    (hopen : s.ended = false) (hgap : ∀ t ∈ gap, t.kind = .space ∨ t.kind = .semicolon)
    (hheld : Held core) (hfirm : ∀ t ∈ core, t.piece.Firm)
    (hts : ts.map Token.piece = core.map Token.piece) (hspace : IsSpace space)
    (hne : core = [] → space = []) : Runs context s (gap ++ (ts ++ space)) (s.Starts core) := by
  have hclosed : ∀ t ∈ ts ++ space, t.unclosed = false := by
    refine List.forall_mem_append.mpr ⟨fun t ht ↦ ?_, fun t ht ↦ ?_⟩
    · obtain ⟨u, hu, hpiece⟩ := List.mem_map.mp (hts ▸ List.mem_map_of_mem ht)
      have hclosed := (hfirm u hu).1
      rw [hpiece] at hclosed
      simpa [Token.piece] using hclosed
    · obtain rfl | ⟨u, rfl, -, hclosed, -⟩ := hspace
      · contradiction
      · exact List.mem_singleton.mp ht ▸ hclosed
  have hplain : Plain space := by
    intro t ht
    obtain rfl | ⟨u, rfl, hkind, -⟩ := hspace
    · contradiction
    · obtain rfl := List.mem_singleton.mp ht
      simp [Token.IsPlain, hkind]
  have hboth : Held (ts ++ space) := by
    refine (held_congr hts hheld).append hplain fun hnil ↦ hne ?_
    rw [hnil] at hts
    exact List.map_eq_nil_iff.mp hts.symm
  refine (runs_gap context hnone hopen hgap).append fun s₁ h₁ ↦ ?_
  have hstart : s₁.heldTokens ++ (ts ++ space) = ts ++ space := by rw [h₁.tokens, List.nil_append]
  have hheldBoth : Held (s₁.heldTokens ++ (ts ++ space)) := by
    rw [hstart]
    exact hboth
  refine (runs_hold context h₁.ended hheldBoth hclosed).mono fun s₂ h₂ ↦ ?_
  have htokens := h₂.tokens.trans hstart
  exact ⟨htokens ▸ hboth, h₂.ended, h₂.frames.trans h₁.frames, h₂.children.trans h₁.children,
    ts, space, htokens, hts, hspace⟩

end State

end Parse

open Parse

section

variable {fits : List Char → Prop} {text : List Char} {core : List Token}

/-- Behind a gap there is no more white space, be it that a statement follows or not. -/
theorem head?_join_append {blanks behind : List Char} (hheld : Held core)
    (hnone : core = [] → blanks = []) (hchained : Chained (core.map Token.piece) (blanks ++ behind))
    (hbehind : ∀ c ∈ behind.head?, isBlank c = false) :
    ∀ c ∈ (join (core.map Token.piece) ++ (blanks ++ behind)).head?, isBlank c = false := by
  cases core with
  | nil =>
    rw [hnone rfl]
    exact hbehind
  | cons t ts =>
    rw [List.map_cons, join_cons, List.append_assoc]
    exact hchained.1.head?_append hheld.first_ne_space _

theorem isSpace_of_map_piece {ts : List Token} {blanks : List Char}
    (hblanks : ∀ c ∈ blanks, isBlank c = true)
    (h : ts.map Token.piece = if blanks = [] then [] else [⟨.space, blanks, true⟩]) :
    IsSpace ts := by
  split at h
  · exact .inl (List.map_eq_nil_iff.mp h)
  · obtain ⟨t, rest, rfl, ht, hrest⟩ := List.map_eq_cons_iff.mp h
    obtain rfl := List.map_eq_nil_iff.mp hrest
    injection ht with hkind htext hclosed
    exact .inr ⟨t, rfl, hkind, by simpa using hclosed, htext ▸ hblanks⟩

/-- More blanks can stand behind a statement. -/
theorem Spelled.append_blanks (h : Spelled fits text core) (hne : core ≠ []) {lead : List Char}
    (hlead : ∀ c ∈ lead, isBlank c = true) :
    Spelled (fun later ↦ fits (lead ++ later)) (text ++ lead) core := by
  obtain ⟨gap, blanks, htext, hgap, hblanks, -, hcore⟩ := h.parts
  refine ⟨h.held, h.firm, h.trimmed, gap, blanks ++ lead, ?_, hgap,
    List.forall_mem_append.mpr ⟨hblanks, hlead⟩, fun hempty ↦ absurd hempty hne,
    fun behind hbehind ↦ ?_⟩
  · rw [htext, List.append_assoc]
  · rw [List.append_assoc]
    exact hcore _ hbehind

/-- The text is read up to where the statement ends. -/
theorem Spelled.exists_runs (h : Spelled fits text core) (context : Context) :
    ∃ ps, join ps = text ∧
      (∀ behind, fits behind → (∀ c ∈ behind.head?, isBlank c = false) → Chained ps behind) ∧
        ∀ s ts, s.statement = none → s.ended = false → ts.map Token.piece = ps →
          Runs context s ts (s.Starts core) := by
  obtain ⟨gap, blanks, htext, hgap, hblanks, hnone, hcore⟩ := h.parts
  obtain ⟨qs, hqs, hkinds, hbetween⟩ := exists_chained_gap hgap
  let space : List Piece := if blanks = [] then [] else [⟨.space, blanks, true⟩]
  have hjoin : join space = blanks := by
    dsimp only [space]
    split <;> simp [*]
  refine ⟨qs ++ (core.map Token.piece ++ space), ?_, fun behind hfits hbehind ↦ ?_,
    fun s ts hstatement hopen hts ↦ ?_⟩
  · rw [join_append, join_append, hqs, hjoin, htext, List.append_assoc]
  · have hchained := hcore behind hfits
    rw [chained_append, chained_append, join_append, hjoin, List.append_assoc]
    refine ⟨hbetween _ (head?_join_append h.held hnone hchained hbehind), hchained, ?_⟩
    dsimp only [space]
    split
    · trivial
    · next hne => exact ⟨leads_space hne hblanks hbehind, trivial⟩
  · obtain ⟨front, rest, rfl, hfront, hrest⟩ := List.map_eq_append_iff.mp hts
    obtain ⟨us, vs, rfl, hus, hvs⟩ := List.map_eq_append_iff.mp hrest
    have hfrontKinds : ∀ t ∈ front, t.kind = .space ∨ t.kind = .semicolon := fun t ht ↦
      (hkinds t.piece (hfront ▸ List.mem_map_of_mem ht)).1
    refine State.runs_start context hstatement hopen hfrontKinds h.held h.firm hus
      (isSpace_of_map_piece hblanks hvs) fun hempty ↦ ?_
    have hnil : space = [] := if_pos (hnone hempty)
    rw [hnil] at hvs
    exact List.map_eq_nil_iff.mp hvs

end

namespace Parse

namespace State

variable {context : Context} {s s' : State} {core : List Token} {t : Token} {leaf : Leaf}
variable {ending : Ending}

theorem trimmed_congr {ts us : List Token} (h : us.map Token.piece = ts.map Token.piece)
    (hts : ∀ t ∈ ts.getLast?, t.kind ≠ .space) : ∀ u ∈ us.getLast?, u.kind ≠ .space := by
  intro u hu
  have hlast := congrArg List.getLast? h
  rw [List.getLast?_map, List.getLast?_map, Option.mem_def.mp hu] at hlast
  obtain ⟨t, ht, hpiece⟩ := Option.map_eq_some_iff.mp hlast.symm
  have hkind : t.kind = u.kind := congrArg Piece.kind hpiece
  exact hkind ▸ hts t ht

theorem Starts.gist_leaf (h : s.Starts core s') (htrimmed : ∀ t ∈ core.getLast?, t.kind ≠ .space)
    (kind : BodyKind) : (Leaf.ofTokens? kind s'.heldTokens).map Leaf.gist =
      (Leaf.ofTokens? kind core).map Leaf.gist := by
  obtain ⟨ts, space, htokens, hts, rfl | ⟨t, rfl, hkind, -, hblank⟩⟩ := h.split
  · rw [htokens, List.append_nil, Leaf.ofTokens?_congr kind hts]
  · rw [htokens, Leaf.gist_ofTokens?_concat kind hkind hblank (trimmed_congr hts htrimmed),
      Leaf.ofTokens?_congr kind hts]

theorem Starts.gist_head (h : s.Starts core s') (htrimmed : ∀ t ∈ core.getLast?, t.kind ≠ .space) :
    (Head.ofTokens s'.heldTokens).gist = (Head.ofTokens core).gist := by
  obtain ⟨ts, space, htokens, hts, rfl | ⟨t, rfl, hkind, -⟩⟩ := h.split
  · rw [htokens, List.append_nil, Head.ofTokens_congr hts]
  · rw [htokens, Head.gist_ofTokens_concat hkind (trimmed_congr hts htrimmed),
      Head.ofTokens_congr hts]

/-- A statement that is cut off is told apart from the white space behind it. -/
theorem Starts.map_piece_splitSpace (h : s.Starts core s')
    (htrimmed : ∀ t ∈ core.getLast?, t.kind ≠ .space) {statement : Statement}
    (hstatement : s'.statement = some statement) :
    statement.splitSpace.1.tokens.map Token.piece = core.map Token.piece := by
  have hheld := h.held
  obtain ⟨ts, space, htokens, hts, hspace⟩ := h.split
  rw [heldTokens_some hstatement] at hheld htokens
  have hsplit := Statement.splitSpace_eq hheld.first_ne_space
  rw [htokens] at hsplit
  obtain rfl | ⟨t, rfl, hkind, -⟩ := hspace
  · rw [List.append_nil, splitTrailingSpace_of_getLast? (trimmed_congr hts htrimmed)] at hsplit
    rw [(Prod.mk.inj hsplit).1, hts]
  · rw [splitTrailingSpace_concat hkind] at hsplit
    rw [(Prod.mk.inj hsplit).1, hts]

theorem Starts.exists_statement (h : s.Starts core s') (hne : core ≠ []) :
    ∃ statement, s'.statement = some statement := by
  cases hstatement : s'.statement with
  | some statement => exact ⟨statement, rfl⟩
  | none =>
    obtain ⟨ts, space, htokens, hts, -⟩ := h.split
    rw [heldTokens_none hstatement] at htokens
    obtain ⟨rfl, -⟩ := List.append_eq_nil_iff.mp htokens.symm
    exact absurd (List.map_eq_nil_iff.mp hts.symm) hne

theorem ofTokens?_nil (kind : BodyKind) : Leaf.ofTokens? kind [] = none := by
  cases kind <;> rfl

/-- A semicolon ends the statement. -/
theorem Starts.runs_semicolon (context : Context) (h : s.Starts core s')
    (htrimmed : ∀ t ∈ core.getLast?, t.kind ≠ .space)
    (hleaf : (Leaf.ofTokens? s.accepts core).map Leaf.gist = some leaf.gist)
    (ht : t.kind = .semicolon) :
    Runs context s' [t] (s.Adds [.leaf ⟨none, 0, 0⟩ leaf.gist]) := by
  have hne : core ≠ [] := by
    rintro rfl
    simp [ofTokens?_nil] at hleaf
  obtain ⟨statement, hstatement⟩ := h.exists_statement hne
  have hgist := h.gist_leaf htrimmed s.accepts
  rw [heldTokens_some hstatement, hleaf, ← accepts_congr h.frames] at hgist
  rw [← s'.gist_leaf? statement (.inl (by decide : Ending.semicolon ≠ .endOfText))] at hgist
  obtain ⟨leaf', hleaf', hsame⟩ := Option.map_eq_some_iff.mp hgist
  have hnot : ¬s'.ended = true := ne_true_of_eq_false h.ended
  have hfatal : s'.fatal? t = none := by simp [fatal?, ht]
  have hrepair : s'.repair? t = none := by
    rw [repair?, if_neg hnot, ht]
    dsimp only
    rw [hstatement, Option.bind_some, keeping?_eq_none_iff, hleaf']
    rfl
  have hadvance : s'.advance context t =
      (({ s' with statement := none : State }).addLeaf (context.source statement.first.start)
        leaf').setSemicolon true := by
    have hleafNone : { s' with statement := none : State }.leaf? statement .semicolon =
        some leaf' := hleaf'
    rw [advance, if_neg hnot, ht]
    dsimp only
    rw [hstatement]
    dsimp only
    rw [conclude, hleafNone]
    rfl
  refine .cons hfatal hrepair (.nil ?_)
  rw [hadvance]
  refine ⟨rfl, h.ended, h.frames, ?_⟩
  change (Node.leaf _ leaf' :: s'.scope.children).map Node.gist = _
  rw [List.map_cons, Node.gist_leaf, hsame, h.children]
  rfl

/-- The end of the container ends it, too. -/
theorem Starts.ends (context : Context) (h : s.Starts core s')
    (htrimmed : ∀ t ∈ core.getLast?, t.kind ≠ .space)
    (hleaf : (Leaf.ofTokens? s.accepts core).map Leaf.gist = some leaf.gist)
    (hending : ending ≠ .endOfText ∨ s.accepts = .rules) :
    s.Ends context ending [.leaf ⟨none, 0, 0⟩ leaf.gist] s' := by
  have hne : core ≠ [] := by
    rintro rfl
    simp [ofTokens?_nil] at hleaf
  obtain ⟨statement, hstatement⟩ := h.exists_statement hne
  have hgist := hleaf
  rw [← Leaf.ofTokens?_congr s.accepts (h.map_piece_splitSpace htrimmed hstatement),
    ← accepts_congr h.frames] at hgist
  rw [← accepts_congr h.frames] at hending
  rw [← s'.gist_leaf? statement.splitSpace.1 hending] at hgist
  obtain ⟨leaf', hleaf', hsame⟩ := Option.map_eq_some_iff.mp hgist
  refine ⟨?_, h.ended, h.frames, ?_⟩
  · rw [cutRepair?, hstatement, Option.bind_some, keeping?_eq_none_iff, hleaf']
    rfl
  · have hleafNone : { s' with statement := none : State }.leaf? statement.splitSpace.1 ending =
        some leaf' := hleaf'
    rw [cut, hstatement]
    dsimp only
    rw [conclude, hleafNone]
    change (Node.leaf _ leaf' :: s'.scope.children).map Node.gist = _
    rw [List.map_cons, Node.gist_leaf, hsame, h.children]
    rfl

/-- A block in the innermost container becomes a node of it where its brace is read. -/
theorem Starts.runs_block (context : Context) (h : s.Starts core s') {opening closing : Token}
    {inside : List Token} {head : Head} {gists : List Node} (hopening : opening.kind = .openCurly)
    (hclosing : closing.kind = .closeCurly)
    (hhead : (s'.blockHead context opening).2.gist = head.gist) (hrules : s.accepts = .rules)
    (hinside : ∀ s₂, Between head.body s₂ →
      Runs context s₂ inside (s₂.Ends context .closeCurly gists)) :
    Runs context s' (opening :: (inside ++ [closing]))
      (s.Adds [.block ⟨none, 0, 0⟩ head.gist gists "" false]) := by
  have hnot : ¬s'.ended = true := ne_true_of_eq_false h.ended
  have haccepts : s'.accepts = .rules := (accepts_congr h.frames).trans hrules
  have hfatal : s'.fatal? opening = none := by simp [fatal?, haccepts, hopening]
  have hrepair : s'.repair? opening = none := by rw [repair?, if_neg hnot, hopening]
  have hadvance : s'.advance context opening =
      s'.openBlock (s'.blockHead context opening).1 (s'.blockHead context opening).2 := by
    rw [advance, if_neg hnot, hopening]
  refine .cons hfatal hrepair ?_
  rw [hadvance]
  generalize s'.blockHead context opening = block at hhead ⊢
  obtain ⟨source, head'⟩ := block
  dsimp only at hhead ⊢
  have hbody : head'.body = head.body := by
    rw [← Head.body_gist head', hhead, Head.body_gist]
  refine (hinside (s'.openBlock source head') ⟨rfl, h.ended, hbody⟩).append fun s₃ h₃ ↦ ?_
  have hframes : s₃.frames = ⟨source, head', { s'.scope with pending := "", semicolon := false }⟩ ::
      s'.frames := h₃.frames
  have hnot₃ : ¬s₃.ended = true := ne_true_of_eq_false h₃.ended
  have hfatal₃ : s₃.fatal? closing = none := by simp [fatal?, hclosing]
  have hrepair₃ : s₃.repair? closing = none := by
    rw [repair?, if_neg hnot₃, hclosing, hframes]
    exact h₃.repair
  refine .cons hfatal₃ hrepair₃ (.nil ?_)
  rw [advance_brace context hclosing h₃.ended hframes]
  have hgists : (s₃.cut context .closeCurly).scope.children.reverse.map Node.gist = gists := by
    have hempty : (s'.openBlock source head').scope.children = [] := rfl
    rw [List.map_reverse, h₃.children, hempty, List.map_nil, List.append_nil, List.reverse_reverse]
  have hcut := cut_eq context s₃ .closeCurly
  generalize (s₃.cut context .closeCurly).scope = scope at hcut hgists
  rw [hcut]
  unfold closeBlock
  dsimp only
  rw [hframes]
  refine ⟨rfl, h₃.ended, h.frames, ?_⟩
  change (Node.block source head' scope.children.reverse scope.pending scope.semicolon ::
    s'.scope.children).map Node.gist = _
  rw [List.map_cons, Node.gist_block, hhead, hgists, h.children]
  rfl

theorem Holds.statement (h : s.Holds [] s') : s'.statement = none := by
  cases hstatement : s'.statement with
  | none => rfl
  | some statement => exact absurd h.tokens (heldTokens_ne_nil hstatement)

/-- A gap in front of the end of the container is no part of a node. -/
theorem Holds.ends (context : Context) (ending : Ending) (h : s.Holds [] s') :
    s.Ends context ending [] s' := by
  refine ⟨?_, h.ended, h.frames, ?_⟩
  · rw [cutRepair?, h.statement]
    rfl
  · rw [cut_of_none context ending h.statement, h.children]
    rfl

theorem runs_comment (context : Context) (hnone : s.statement = none) (hopen : s.ended = false)
    (hkind : t.kind = .comment) (hclosed : t.unclosed = false) :
    Runs context s [t]
      (s.Adds [.leaf ⟨none, 0, 0⟩ (Leaf.comment (Comment.ofToken "" t)).gist]) := by
  have hnot : ¬s.ended = true := ne_true_of_eq_false hopen
  have hfatal : s.fatal? t = none := by simp [fatal?, hkind]
  have hrepair : s.repair? t = none := by
    rw [repair?, if_neg hnot, hkind, hclosed]
    rfl
  have hadvance : s.advance context t = s.addLeaf (context.source t.start)
      (.comment (Comment.ofToken s.scope.pending t)) := by
    rw [advance, if_neg hnot, hkind]
    dsimp only
    rw [addComment, hnone]
  refine .cons hfatal hrepair (.nil ?_)
  rw [hadvance]
  refine ⟨hnone, hopen, rfl, ?_⟩
  change (Node.leaf _ _ :: s.scope.children).map Node.gist = _
  rw [List.map_cons, Node.gist_leaf]
  rfl

end State

/-! ## Nodes -/

/-- Wherever a node of the list can start the text is read as the nodes, whatever is behind it. -/
def ReadAs (context : Context) (kind : BodyKind) (text : List Char) (gists : List Node) : Prop :=
  ∃ ps, join ps = text ∧ (∀ behind, Chained ps behind) ∧ ∀ s ts, State.Between kind s →
    ts.map Token.piece = ps → Runs context s ts (s.Adds gists)

/-- In front of what closes the container the text is read as its last nodes. -/
def EndsAs (context : Context) (kind : BodyKind) (ending : Ending) (closes : List Char → Prop)
    (text : List Char) (gists : List Node) : Prop :=
  ∃ ps, join ps = text ∧ (∀ behind, closes behind → Chained ps behind) ∧ ∀ s ts,
    State.Between kind s → ts.map Token.piece = ps → Runs context s ts (s.Ends context ending gists)

section

variable {context : Context} {kind : BodyKind} {ending : Ending} {closes fits : List Char → Prop}
variable {text text' after : List Char} {gists gists' : List Node} {leaf : Leaf}

theorem readAs_nil (context : Context) (kind : BodyKind) : ReadAs context kind [] [] := by
  refine ⟨[], rfl, fun _ ↦ trivial, fun s ts hs hts ↦ ?_⟩
  rw [List.map_eq_nil_iff.mp hts]
  exact .nil ⟨hs.statement, hs.ended, rfl, rfl⟩

theorem ReadAs.append (h : ReadAs context kind text gists) (h' : ReadAs context kind text' gists') :
    ReadAs context kind (text ++ text') (gists ++ gists') := by
  obtain ⟨ps, rfl, hps, hruns⟩ := h
  obtain ⟨qs, rfl, hqs, hruns'⟩ := h'
  refine ⟨ps ++ qs, join_append ps qs, fun behind ↦ chained_append.mpr ⟨hps _, hqs behind⟩,
    fun s ts hs hts ↦ ?_⟩
  obtain ⟨us, vs, rfl, hus, hvs⟩ := List.map_eq_append_iff.mp hts
  refine (hruns s us hs hus).append fun s₁ h₁ ↦ ?_
  exact (hruns' s₁ vs (h₁.between hs) hvs).mono fun s₂ h₂ ↦ h₁.trans h₂

theorem ReadAs.append_endsAs (h : ReadAs context kind text gists)
    (h' : EndsAs context kind ending closes text' gists') :
    EndsAs context kind ending closes (text ++ text') (gists ++ gists') := by
  obtain ⟨ps, rfl, hps, hruns⟩ := h
  obtain ⟨qs, rfl, hqs, hruns'⟩ := h'
  refine ⟨ps ++ qs, join_append ps qs, fun behind hbehind ↦
    chained_append.mpr ⟨hps _, hqs behind hbehind⟩, fun s ts hs hts ↦ ?_⟩
  obtain ⟨us, vs, rfl, hus, hvs⟩ := List.map_eq_append_iff.mp hts
  refine (hruns s us hs hus).append fun s₁ h₁ ↦ ?_
  exact (hruns' s₁ vs (h₁.between hs) hvs).mono fun s₂ h₂ ↦ h₁.ends h₂

theorem readAs_comment (context : Context) {c : Comment}
    (h : (Leaf.comment c).Written fits kind) :
    ReadAs context kind (c.addTo "").toList [.leaf ⟨none, 0, 0⟩ (Leaf.comment c).gist] := by
  obtain ⟨gap, t, htext, hgap, hkind, hleads, hclosed, hgist⟩ := h
  obtain ⟨qs, hqs, hkinds, hbetween⟩ := exists_chained_gap hgap
  refine ⟨qs ++ [t.piece], ?_, fun behind ↦ chained_append.mpr ⟨hbetween _ ?_, hleads _, trivial⟩,
    fun s ts hs hts ↦ ?_⟩
  · rw [join_append, hqs, htext]
    simp [Token.piece]
  · rw [join_cons, List.append_assoc]
    exact (hleads behind).head?_append (by simp [Token.piece, hkind]) _
  · obtain ⟨us, vs, rfl, hus, hvs⟩ := List.map_eq_append_iff.mp hts
    obtain ⟨u, rest, rfl, hu, hrest⟩ := List.map_eq_cons_iff.mp hvs
    obtain rfl := List.map_eq_nil_iff.mp hrest
    have husKinds : ∀ t ∈ us, t.kind = .space ∨ t.kind = .semicolon := fun t ht ↦
      (hkinds t.piece (hus ▸ List.mem_map_of_mem ht)).1
    have huKind : u.kind = .comment := (congrArg Piece.kind hu).trans hkind
    have huClosed : u.unclosed = false := by
      simpa [Token.piece, hclosed] using congrArg Piece.closed hu
    refine (State.runs_gap context hs.statement hs.ended husKinds).append fun s₁ h₁ ↦ ?_
    refine (State.runs_comment context h₁.statement h₁.ended huKind huClosed).mono fun s₂ h₂ ↦ ?_
    have hsame : (Leaf.comment (Comment.ofToken "" u)).gist = (Leaf.comment c).gist := by
      rw [Comment.ofToken_eq_of_piece "" hu]
      exact congrArg Leaf.comment hgist
    refine ⟨h₂.statement, h₂.ended, h₂.frames.trans h₁.frames, ?_⟩
    rw [h₂.children, h₁.children, hsame]

theorem readAs_statement (context : Context) (hleaf : leaf.isComment = false)
    (h : leaf.Written Delimits kind) :
    ReadAs context kind ((leaf.addTo "").toList ++ [';']) [.leaf ⟨none, 0, 0⟩ leaf.gist] := by
  obtain ⟨core, hspelled, hgist⟩ := (Leaf.written_iff hleaf).mp h
  obtain ⟨ps, hps, hchained, hruns⟩ := hspelled.exists_runs context
  refine ⟨ps ++ [⟨.semicolon, [';'], true⟩], ?_, fun behind ↦ chained_append.mpr
    ⟨hchained _ (by simp [Delimits]) (by simp [isBlank]), leads_single rfl _, trivial⟩,
    fun s ts hs hts ↦ ?_⟩
  · rw [join_append, hps]
    rfl
  · obtain ⟨us, vs, rfl, hus, hvs⟩ := List.map_eq_append_iff.mp hts
    obtain ⟨u, rest, rfl, hu, hrest⟩ := List.map_eq_cons_iff.mp hvs
    obtain rfl := List.map_eq_nil_iff.mp hrest
    refine (hruns s us hs.statement hs.ended hus).append fun s₁ h₁ ↦ ?_
    rw [← hs.accepts] at hgist
    exact h₁.runs_semicolon context hspelled.trimmed hgist (congrArg Piece.kind hu)

theorem endsAs_gap (context : Context) (kind : BodyKind) (ending : Ending) (hafter : IsGap after)
    (hcloses : ∀ behind, closes behind → ∀ c ∈ behind.head?, isBlank c = false) :
    EndsAs context kind ending closes after [] := by
  obtain ⟨qs, hqs, hkinds, hbetween⟩ := exists_chained_gap hafter
  refine ⟨qs, hqs, fun behind hbehind ↦ hbetween behind (hcloses behind hbehind),
    fun s ts hs hts ↦ ?_⟩
  have htsKinds : ∀ t ∈ ts, t.kind = .space ∨ t.kind = .semicolon := fun t ht ↦
    (hkinds t.piece (hts ▸ List.mem_map_of_mem ht)).1
  exact (State.runs_gap context hs.statement hs.ended htsKinds).mono fun s₁ h₁ ↦
    h₁.ends context ending

/-- A last statement without a semicolon ends with the container, or with a semicolon that stands
behind it all the same. -/
theorem endsAs_statement (context : Context) (hleaf : leaf.isComment = false)
    (h : leaf.Written fits kind) (hafter : IsGap after)
    (hfits : ∀ behind, closes behind → fits (after ++ behind))
    (hcloses : ∀ behind, closes behind → ∀ c ∈ behind.head?, isBlank c = false)
    (hending : ending ≠ .endOfText ∨ kind = .rules) :
    EndsAs context kind ending closes ((leaf.addTo "").toList ++ after)
      [.leaf ⟨none, 0, 0⟩ leaf.gist] := by
  obtain ⟨core, hspelled, hgist⟩ := (Leaf.written_iff hleaf).mp h
  have hne : core ≠ [] := by
    rintro rfl
    simp [State.ofTokens?_nil] at hgist
  have hsplit := leadingBlanks_append_drop after
  have hstops : ∀ c ∈ (dropLeadingBlanks after ++ []).head?, isBlank c = false :=
    head?_dropLeadingBlanks_append after fun _ h ↦ nomatch h
  rw [List.append_nil] at hstops
  have hall := hspelled.append_blanks hne fun c (hc : c ∈ leadingBlanks after) ↦
    isBlank_of_mem_leadingBlanks hc
  obtain ⟨ps, hps, hchained, hruns⟩ := hall.exists_runs context
  cases hrest : dropLeadingBlanks after with
  | nil =>
    rw [hrest, List.append_nil] at hsplit
    rw [hsplit] at hps hchained
    refine ⟨ps, hps, fun behind hbehind ↦ hchained behind (hfits behind hbehind)
      (hcloses behind hbehind), fun s ts hs hts ↦ ?_⟩
    refine (hruns s ts hs.statement hs.ended hts).mono fun s₁ h₁ ↦ ?_
    rw [← hs.accepts] at hgist hending
    exact h₁.ends context hspelled.trimmed hgist hending
  | cons c more =>
    rw [hrest] at hsplit hstops
    have hgap : IsGap (c :: more) := fun d hd ↦ hafter d (hsplit ▸ List.mem_append_right _ hd)
    obtain ⟨hfirst, hmore⟩ := List.forall_mem_cons.mp hgap
    obtain rfl : c = ';' := hfirst.resolve_left (by simp [hstops c rfl])
    obtain ⟨qs, hqs, hends, hrunsGap⟩ := endsAs_gap context kind ending hmore hcloses
    refine ⟨ps ++ ⟨.semicolon, [';'], true⟩ :: qs, ?_, fun behind hbehind ↦ ?_,
      fun s ts hs hts ↦ ?_⟩
    · rw [join_append, join_cons, hps, hqs]
      simpa using hsplit
    · refine chained_append.mpr ⟨hchained _ ?_ (by simp [isBlank]), leads_single rfl _,
        hends behind hbehind⟩
      have hafterBehind := hfits behind hbehind
      rw [← hsplit, List.append_assoc] at hafterBehind
      rw [join_cons, hqs]
      exact hafterBehind
    · obtain ⟨us, vs, rfl, hus, hvs⟩ := List.map_eq_append_iff.mp hts
      obtain ⟨u, rest, rfl, hu, hrest⟩ := List.map_eq_cons_iff.mp hvs
      refine (hruns s us hs.statement hs.ended hus).append fun s₁ h₁ ↦ ?_
      rw [← hs.accepts] at hgist
      have hsemicolon := h₁.runs_semicolon context hspelled.trimmed hgist (congrArg Piece.kind hu)
      have hboth : Runs context s₁ ([u] ++ rest) _ := hsemicolon.append fun s₂ h₂ ↦
        (hrunsGap s₂ rest (h₂.between hs) hrest).mono fun s₃ h₃ ↦ h₂.ends h₃
      exact hboth

/-- A block is read with its head and up to its brace. -/
theorem readAs_block (context : Context) {head : Head} (hhead : head.Written)
    (hbody : EndsAs context head.body .closeCurly (·.head? = some '}') text gists) :
    ReadAs context .rules ((head.addTo "").toList ++ '{' :: (text ++ ['}']))
      [.block ⟨none, 0, 0⟩ head.gist gists "" false] := by
  obtain ⟨core, hspelled, hgist⟩ := hhead
  obtain ⟨ps, hps, hchained, hruns⟩ := hspelled.exists_runs context
  obtain ⟨qs, hqs, hends, hrunsBody⟩ := hbody
  refine ⟨ps ++ ⟨.openCurly, ['{'], true⟩ :: (qs ++ [⟨.closeCurly, ['}'], true⟩]), ?_,
    fun behind ↦ ?_, fun s ts hs hts ↦ ?_⟩
  · simp [hps, hqs]
  · refine chained_append.mpr ⟨hchained _ (by simp [Delimits]) (by simp [isBlank]),
      leads_single rfl _, chained_append.mpr ⟨hends _ rfl, leads_single rfl _, trivial⟩⟩
  · obtain ⟨us, vs, rfl, hus, hvs⟩ := List.map_eq_append_iff.mp hts
    obtain ⟨opening, rest, rfl, hopening, hrest⟩ := List.map_eq_cons_iff.mp hvs
    obtain ⟨inside, closings, rfl, hinside, hclosings⟩ := List.map_eq_append_iff.mp hrest
    obtain ⟨closing, nothing, rfl, hclosing, hnothing⟩ := List.map_eq_cons_iff.mp hclosings
    obtain rfl := List.map_eq_nil_iff.mp hnothing
    refine (hruns s us hs.statement hs.ended hus).append fun s₁ h₁ ↦ ?_
    have hsame : (s₁.blockHead context opening).2.gist = head.gist := by
      rw [State.gist_blockHead, h₁.gist_head hspelled.trimmed, hgist]
    refine h₁.runs_block context (congrArg Piece.kind hopening) (congrArg Piece.kind hclosing) hsame
      hs.accepts fun s₂ h₂ ↦ hrunsBody s₂ inside h₂ hinside

/-- Nodes that are read one by one are read in a row, each statement with its semicolon. -/
theorem readAs_all {ns : List Node} (h : ∀ n ∈ ns,
      ReadAs context kind (n.text ++ if n.isStatement then ";" else "").toList [n.gist]) :
    ReadAs context kind (Node.textAll true ns).toList (ns.map Node.gist) := by
  induction ns with
  | nil => exact readAs_nil context kind
  | cons n behind ih =>
    obtain ⟨hn, hbehind⟩ := List.forall_mem_cons.mp h
    have hneeds : n.needsSemicolon true behind = n.isStatement := by simp [Node.needsSemicolon]
    rw [Node.textAll_cons, hneeds, String.toList_append]
    exact hn.append (ih hbehind)

/-- The last statement has no semicolon and ends with its container. -/
theorem endsAs_concat {front : List Node} (source : Source)
    (hfront : ReadAs context kind (Node.textAll true front).toList (front.map Node.gist))
    (hleaf : leaf.isComment = false) (h : leaf.Written fits kind) (hafter : IsGap after)
    (hfits : ∀ behind, closes behind → fits (after ++ behind))
    (hcloses : ∀ behind, closes behind → ∀ c ∈ behind.head?, isBlank c = false)
    (hending : ending ≠ .endOfText ∨ kind = .rules) :
    EndsAs context kind ending closes
      ((Node.textAll false (front ++ [Node.leaf source leaf])).toList ++ after)
      ((front ++ [Node.leaf source leaf]).map Node.gist) := by
  have hplain : (Node.leaf source leaf).isComment = false := hleaf
  have hlast := endsAs_statement context hleaf h hafter hfits hcloses hending
  have hends := hfront.append_endsAs hlast
  rw [Node.textAll_append_plain false front hplain, Bool.and_false, if_neg Bool.false_ne_true,
    String.append_empty, String.toList_append, Node.text_leaf, List.map_append, List.map_singleton,
    Node.gist_leaf, List.append_assoc]
  exact hends

/-- Nodes that are read one by one are read up to the end of their container. -/
theorem endsAs_all {ns : List Node} {semicolon : Bool} (hwritten : ∀ n ∈ ns, n.Written kind)
    (hreads : ∀ n ∈ ns,
      ReadAs context kind (n.text ++ if n.isStatement then ";" else "").toList [n.gist])
    (hapart : Node.Apart semicolon ns) (hafter : IsGap after)
    (hdelimits : ∀ behind, closes behind → Delimits behind)
    (hcloses : ∀ behind, closes behind → ∀ c ∈ behind.head?, isBlank c = false)
    (hending : ending ≠ .endOfText ∨ kind = .rules) :
    EndsAs context kind ending closes ((Node.textAll semicolon ns).toList ++ after)
      (ns.map Node.gist) := by
  obtain htext | ⟨rfl, front, last, rfl, hlast⟩ := hapart.cases
  · have hgap := endsAs_gap context kind ending hafter hcloses
    have hends := (readAs_all hreads).append_endsAs hgap
    rwa [List.append_nil, ← htext] at hends
  · obtain ⟨hfront, -⟩ := List.forall_mem_append.mp hreads
    cases last with
    | block => contradiction
    | leaf source l =>
      have hleaf : l.isComment = false := by
        simpa [Node.isStatement, Leaf.isStatement] using hlast
      have hl := Node.written_leaf_iff.mp (hwritten (.leaf source l) (by simp))
      exact endsAs_concat source (readAs_all hfront) hleaf hl hafter
        (fun behind hbehind ↦ hafter.delimits (hdelimits behind hbehind)) hcloses hending

end

end Parse

/-- A node that is written is read wherever it stands in its list. -/
theorem Node.Written.readAs {kind : BodyKind} {n : Node} (h : n.Written kind) (context : Context) :
    ReadAs context kind (n.text ++ if n.isStatement then ";" else "").toList [n.gist] := by
  induction h with
  | @leaf kind source l h =>
    rw [Node.isStatement, Leaf.isStatement, Node.text_leaf, Node.gist_leaf, String.toList_append]
    cases hleaf : l.isComment with
    | true =>
      cases l with
      | comment c =>
        have hreads := readAs_comment context h
        rwa [← List.append_nil (c.addTo "").toList] at hreads
      | declaration d => contradiction
      | statement p => contradiction
    | false => exact readAs_statement context hleaf h
  | @block source head children after semicolon hhead hchildren hafter hapart ih =>
    have hbrace (behind : List Char) (hbehind : behind.head? = some '}') :
        ∀ c ∈ behind.head?, c = '}' := by
      intro c hc
      rw [hbehind] at hc
      exact (Option.some.inj hc).symm
    have hbody : EndsAs context head.body .closeCurly (·.head? = some '}')
        ((Node.textAll semicolon children).toList ++ after.toList) (children.map Node.gist) := by
      refine endsAs_all hchildren ih hapart hafter (fun behind hbehind c hc ↦ ?_)
        (fun behind hbehind c hc ↦ ?_) (.inl (by decide))
      · exact .inr (.inr (.inr (hbrace behind hbehind c hc)))
      · rw [hbrace behind hbehind c hc]
        rfl
    have hreads := readAs_block context hhead hbody
    have hnone : (Node.block source head children after semicolon).isStatement = false := rfl
    rw [hnone, Node.text_block, Node.gist_block]
    simpa using hreads

theorem Tree.Written.endsAs {t : Tree} (h : t.Written) (context : Context) :
    EndsAs context .rules .endOfText (· = [])
      ((Node.textAll t.semicolon t.rules).toList ++ t.after.toList) (t.rules.map Node.gist) := by
  obtain ⟨hafter, ⟨hwritten, hapart⟩ |
    ⟨front, source, l, hrules, hfront, hsemicolon, hleaf, hl⟩⟩ := h
  · exact endsAs_all hwritten (fun n hn ↦ (hwritten n hn).readAs context) hapart hafter
      (by simp [Delimits]) (by simp) (.inr rfl)
  · rw [hrules, hsemicolon]
    exact endsAs_concat source (readAs_all fun n hn ↦ (hfront n hn).readAs context) hleaf hl hafter
      (by simp) (by simp) (.inr rfl)

/-- A written tree is read again with the same gists. -/
theorem Tree.Written.reread {t : Tree} (h : t.Written) {options : Options}
    (hstrict : options.strict = true) (hmark : t.text.toList.head? ≠ some '\uFEFF') :
    ∃ reread, parse options t.text = .ok reread ∧
      reread.rules.map Node.gist = t.rules.map Node.gist := by
  obtain ⟨ps, hps, hchained, hruns⟩ := h.endsAs options.context
  have htext : stripMark t.text.toList = join ps := by
    rw [stripMark_of_head?_ne hmark, hps, Tree.text_eq, String.toList_append]
  have htokens := tokenize_eq_placed htext (hchained [] rfl)
  have hall := hruns {} (tokenize t.text) ⟨rfl, rfl, rfl⟩ (by rw [htokens, map_piece_placed])
  have hends : ({} : State).Ends options.context .endOfText (t.rules.map Node.gist)
      (reached options.context (tokenize t.text)) := hall.reached
  have hframes : (reached options.context (tokenize t.text)).frames = [] := hends.frames
  have hfinal : (reached options.context (tokenize t.text)).finalRefusal? = none :=
    (State.finalRefusal?_eq_none_iff_closed _ hends.ended).mpr ⟨hframes, hends.repair⟩
  have hgists : (treeOf options.context (tokenize t.text)).rules.map Node.gist =
      t.rules.map Node.gist := by
    have hnone : ({} : State).scope.children = [] := rfl
    rw [treeOf, State.conclusion_of_closed options.context _ hends.ended hframes, State.tree,
      List.map_reverse, hends.children, hnone, List.map_nil, List.append_nil, List.reverse_reverse]
  exact ⟨_, (parse_strict_eq_ok_iff options t.text hstrict _).mpr
    ⟨hall.fatal, hall.repairs, hfinal, rfl⟩, hgists⟩

end Stylesheet
