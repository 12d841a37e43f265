import Stylesheet.Parse.Statement
import Stylesheet.Proofs.Token.Shape

/-!
# The grammar of strict parsing

A stylesheet is a list of rules, a block a list of rules or of declarations. What stands in a list
are blanks, statements that end with a semicolon, and blocks; the last statement can do without its
semicolon.

The grammar is deterministic: the tokens up to the first brace or semicolon decide what comes first
(`Derives.cases_append_cons`). This gives the language of what still has to follow when some blocks
are open (`Remains`), token by token.
-/

namespace Stylesheet

namespace Token

/-- Stands by itself between statements. -/
def IsBlank (t : Token) : Prop :=
  t.kind = .space ∨ t.kind = .comment ∨ t.kind = .semicolon

/-- Neither a brace nor a semicolon. -/
def IsPlain (t : Token) : Prop :=
  t.kind ≠ .openCurly ∧ t.kind ≠ .closeCurly ∧ t.kind ≠ .semicolon

def StartsAt (t : Token) : Prop :=
  t.kind = .atWord ∧ 1 < t.text.length

def StartsSelector (t : Token) : Prop :=
  t.kind = .word ∨ t.kind = .string ∨ t.kind = .colon ∨ t.kind = .other

def atName (t : Token) : String :=
  String.ofList (t.text.toList.drop 1)

variable {t : Token}

theorem IsBlank.kind_of_not_isPlain (h : t.IsBlank) (hplain : ¬t.IsPlain) :
    t.kind = .semicolon := by
  rcases h with h | h | h
  · exact absurd (by simp [IsPlain, h]) hplain
  · exact absurd (by simp [IsPlain, h]) hplain
  · exact h

theorem startsAt_iff (h : t.Shaped) (hkind : t.kind = .atWord) : t.StartsAt ↔ t.text ≠ "@" := by
  obtain ⟨name, hname⟩ := h.atWord hkind
  have hsign : "@" = String.ofList ['@'] := rfl
  have hlength : (String.ofList ('@' :: name)).length = name.length + 1 := by
    rw [String.length_ofList, List.length_cons]
  rw [StartsAt, hname, hlength, hsign, ne_eq, String.ofList_inj]
  cases name <;> simp [hkind]

theorem not_isBlank_of_starts (h : t.StartsAt ∨ t.StartsSelector) : ¬t.IsBlank := by
  intro hblank
  rcases h with ⟨h, -⟩ | h | h | h | h <;> simp [IsBlank, h] at hblank

end Token

namespace Grammar

def Plain (ts : List Token) : Prop :=
  ∀ t ∈ ts, t.IsPlain

def IsAt : List Token → Prop
  | [] => False
  | t :: ts => t.StartsAt ∧ Plain (t :: ts)

def IsSelector : List Token → Prop
  | [] => False
  | t :: ts => t.StartsSelector ∧ Plain (t :: ts)

/-- A declaration starts like an at-rule or like a selector, and has a colon. -/
def IsDeclaration : List Token → Prop
  | [] => False
  | t :: ts =>
    (t.StartsAt ∨ t.StartsSelector) ∧ Plain (t :: ts) ∧ ∃ colon ∈ t :: ts, colon.kind = .colon

/-- What a semicolon ends, among rules and among declarations. -/
def IsStatement : BodyKind → List Token → Prop
  | .rules => IsAt
  | .declarations => IsDeclaration

/-- What stands in front of a block, and what the block holds. -/
inductive Opens : List Token → BodyKind → Prop
  | atRule {t : Token} {ts : List Token} (h : IsAt (t :: ts)) : Opens (t :: ts) (bodyKind t.atName)
  | rule {ts : List Token} (h : IsSelector ts) : Opens ts .declarations
  | bare : Opens [] .declarations

/-- The tokens of a list of rules or of declarations. -/
inductive Derives : BodyKind → List Token → Prop
  | nil {kind : BodyKind} : Derives kind []
  | last {kind : BodyKind} {ts : List Token} (h : IsStatement kind ts) : Derives kind ts
  | blank {kind : BodyKind} {t : Token} {ts : List Token} (h : t.IsBlank) (hts : Derives kind ts) :
      Derives kind (t :: ts)
  | statement {kind : BodyKind} {semicolon : Token} {us ts : List Token} (h : IsStatement kind us)
      (hsemicolon : semicolon.kind = .semicolon) (hts : Derives kind ts) :
      Derives kind (us ++ semicolon :: ts)
  | block {inner : BodyKind} {opening closing : Token} {head body ts : List Token}
      (h : Opens head inner) (hopening : opening.kind = .openCurly)
      (hclosing : closing.kind = .closeCurly) (hbody : Derives inner body)
      (hts : Derives .rules ts) : Derives .rules (head ++ opening :: body ++ closing :: ts)

/-- A whole stylesheet. -/
abbrev Sheet (ts : List Token) : Prop :=
  Derives .rules ts

variable {kind inner : BodyKind} {t delimiter : Token} {ts us held : List Token}

/-! ## Statements -/

/-- A statement can go on from here. -/
structure Held (ts : List Token) : Prop where
  plain : Plain ts
  starts : ∀ t ∈ ts.head?, t.StartsAt ∨ t.StartsSelector

theorem held_nil : Held [] where
  plain _ h := nomatch h
  starts _ h := nomatch h

theorem IsStatement.plain (h : IsStatement kind ts) : Plain ts := by
  cases ts with
  | nil => exact fun _ h ↦ nomatch h
  | cons t ts =>
    cases kind with
    | rules => exact h.2
    | declarations => exact h.2.1

theorem Opens.plain (h : Opens ts kind) : Plain ts := by
  cases h with
  | atRule h => exact h.2
  | rule h =>
    cases ts with
    | nil => exact h.elim
    | cons t ts => exact h.2
  | bare => exact fun _ h ↦ nomatch h

theorem IsStatement.starts (h : IsStatement kind (t :: ts)) : t.StartsAt ∨ t.StartsSelector := by
  cases kind with
  | rules => exact .inl h.1
  | declarations => exact h.1

theorem Opens.starts (h : Opens (t :: ts) kind) : t.StartsAt ∨ t.StartsSelector := by
  cases h with
  | atRule h => exact .inl h.1
  | rule h => exact .inr h.1

theorem IsStatement.ne_nil (h : IsStatement kind ts) : ts ≠ [] := by
  rintro rfl
  cases kind <;> exact h

/-- Two lists are the same up to the first brace or semicolon if they are the same at all. -/
theorem append_cons_inj {a b : Token} (hts : Plain ts) (hus : Plain us) (ha : ¬a.IsPlain)
    (hb : ¬b.IsPlain) {as bs : List Token} (h : ts ++ a :: as = us ++ b :: bs) :
    ts = us ∧ a = b ∧ as = bs := by
  induction ts generalizing us with
  | nil =>
    cases us with
    | nil => exact ⟨rfl, List.cons.inj h⟩
    | cons u us =>
      obtain rfl := (List.cons.inj h).1
      exact absurd (hus a List.mem_cons_self) ha
  | cons t ts ih =>
    cases us with
    | nil =>
      obtain rfl := (List.cons.inj h).1
      exact absurd (hts t List.mem_cons_self) hb
    | cons u us =>
      obtain ⟨rfl, hrest⟩ := List.cons.inj h
      obtain ⟨rfl, hsame⟩ := ih (fun t ht ↦ hts t (List.mem_cons_of_mem _ ht))
        (fun t ht ↦ hus t (List.mem_cons_of_mem _ ht)) hrest
      exact ⟨rfl, hsame⟩

/-! ## What comes first -/

/-- Up to the first brace or semicolon there is a blank, a statement or the head of a block. -/
theorem Derives.cases_append_cons (h : Derives kind (held ++ delimiter :: ts))
    (hheld : Held held) (hdelimiter : ¬delimiter.IsPlain) :
    (delimiter.kind = .semicolon ∧ (held = [] ∨ IsStatement kind held) ∧ Derives kind ts) ∨
      (delimiter.kind = .openCurly ∧ kind = .rules ∧ ∃ inner body closing rest,
        ts = body ++ closing :: rest ∧ closing.kind = .closeCurly ∧ Opens held inner ∧
          Derives inner body ∧ Derives .rules rest) := by
  generalize hall : held ++ delimiter :: ts = all at h
  cases h with
  | nil => simp at hall
  | last h =>
    have hplain := h.plain
    rw [← hall] at hplain
    exact absurd (hplain delimiter (by simp)) hdelimiter
  | @blank _ t rest ht hrest =>
    cases held with
    | nil =>
      obtain ⟨rfl, rfl⟩ := List.cons.inj hall
      exact .inl ⟨ht.kind_of_not_isPlain hdelimiter, .inl rfl, hrest⟩
    | cons first more =>
      obtain ⟨rfl, -⟩ := List.cons.inj hall
      exact absurd ht (Token.not_isBlank_of_starts (hheld.starts first rfl))
  | statement h hsemicolon hrest =>
    have hplain : ¬Token.IsPlain _ := fun hplain ↦ hplain.2.2 hsemicolon
    obtain ⟨rfl, rfl, rfl⟩ := append_cons_inj hheld.plain h.plain hdelimiter hplain hall
    exact .inl ⟨hsemicolon, .inr h, hrest⟩
  | block h hopening hclosing hbody hrest =>
    have hplain : ¬Token.IsPlain _ := fun hplain ↦ hplain.1 hopening
    rw [List.append_assoc, List.cons_append] at hall
    obtain ⟨rfl, rfl, rfl⟩ := append_cons_inj hheld.plain h.plain hdelimiter hplain hall
    exact .inr ⟨hopening, rfl, _, _, _, _, rfl, hclosing, h, hbody, hrest⟩

theorem derives_iff_of_held (kind : BodyKind) (hheld : Held held) :
    Derives kind held ↔ held = [] ∨ IsStatement kind held := by
  constructor
  · intro h
    cases h with
    | nil => exact .inl rfl
    | last h => exact .inr h
    | blank ht hts => exact absurd ht (Token.not_isBlank_of_starts (hheld.starts _ rfl))
    | statement h hsemicolon hts =>
      exact absurd hsemicolon (hheld.plain _ (by simp)).2.2
    | block h hopening hclosing hbody hts =>
      exact absurd hopening (hheld.plain _ (by simp)).1
  · rintro (rfl | h)
    · exact .nil
    · exact .last h

theorem derives_cons_blank_iff (ht : t.IsBlank) : Derives kind (t :: ts) ↔ Derives kind ts := by
  refine ⟨fun h ↦ ?_, .blank ht⟩
  generalize hall : t :: ts = all at h
  cases h with
  | nil => contradiction
  | last h =>
    rw [← hall] at h
    exact absurd ht (Token.not_isBlank_of_starts h.starts)
  | blank _ hts =>
    obtain ⟨-, rfl⟩ := List.cons.inj hall
    exact hts
  | @statement _ semicolon us _ h hsemicolon hts =>
    cases us with
    | nil => exact absurd rfl h.ne_nil
    | cons u us =>
      obtain ⟨rfl, -⟩ := List.cons.inj hall
      exact absurd ht (Token.not_isBlank_of_starts h.starts)
  | @block _ opening _ head _ _ h hopening hclosing hbody hts =>
    cases head with
    | nil =>
      obtain ⟨rfl, -⟩ := List.cons.inj hall
      simp [Token.IsBlank, hopening] at ht
    | cons u us =>
      obtain ⟨rfl, -⟩ := List.cons.inj hall
      exact absurd ht (Token.not_isBlank_of_starts h.starts)

/-! ## What remains -/

/-- What can follow where blocks with these lists are open, the innermost first. -/
def Remains : List BodyKind → List Token → Prop
  | [], ts => Derives .rules ts
  | kind :: outer, ts => ∃ body closing rest, ts = body ++ closing :: rest ∧
      closing.kind = .closeCurly ∧ Derives kind body ∧ Remains outer rest

/-- What can follow once the innermost list is complete. -/
def Behind : List BodyKind → List Token → Prop
  | [], ts => ts = []
  | _ :: outer, ts => ∃ closing rest, ts = closing :: rest ∧ closing.kind = .closeCurly ∧
      Remains outer rest

variable {kinds : List BodyKind}

theorem remains_iff : Remains kinds ts ↔
    ∃ front behind, ts = front ++ behind ∧ Derives (kinds.headD .rules) front ∧
      Behind kinds behind := by
  cases kinds with
  | nil => simp [Remains, Behind]
  | cons kind outer =>
    constructor
    · rintro ⟨body, closing, rest, hts, hclosing, hbody, hrest⟩
      exact ⟨body, closing :: rest, hts, hbody, closing, rest, rfl, hclosing, hrest⟩
    · rintro ⟨body, _, hts, hbody, closing, rest, rfl, hclosing, hrest⟩
      exact ⟨body, closing, rest, hts, hclosing, hbody, hrest⟩

theorem Behind.kind_eq (h : Behind kinds (t :: ts)) : t.kind = .closeCurly := by
  cases kinds with
  | nil => contradiction
  | cons kind outer =>
    obtain ⟨closing, rest, hall, hclosing, _⟩ := h
    obtain ⟨rfl, -⟩ := List.cons.inj hall
    exact hclosing

/-- A brace or semicolon either closes the innermost list or stands in it. -/
theorem Remains.cases_append_cons (h : Remains kinds (held ++ delimiter :: ts))
    (hheld : Held held) :
    (Derives (kinds.headD .rules) held ∧ Behind kinds (delimiter :: ts)) ∨
      ∃ front behind, ts = front ++ behind ∧ Behind kinds behind ∧
        Derives (kinds.headD .rules) (held ++ delimiter :: front) := by
  obtain ⟨front, behind, hall, hfront, hbehind⟩ := remains_iff.mp h
  obtain ⟨more, hmore, hrest⟩ | ⟨more, hmore, hrest⟩ := List.append_eq_append_iff.mp hall
  · cases more with
    | nil =>
      rw [List.append_nil] at hmore
      rw [List.nil_append] at hrest
      exact .inl ⟨hmore ▸ hfront, hrest ▸ hbehind⟩
    | cons t more =>
      obtain ⟨rfl, rfl⟩ := List.cons.inj hrest
      exact .inr ⟨more, behind, rfl, hbehind, hmore ▸ hfront⟩
  · cases more with
    | nil =>
      rw [List.append_nil] at hmore
      rw [List.nil_append] at hrest
      exact .inl ⟨hmore ▸ hfront, hrest ▸ hbehind⟩
    | cons t more =>
      rw [hrest] at hbehind
      exact absurd hbehind.kind_eq (hheld.plain t (by simp [hmore])).2.1

theorem remains_cons_blank_iff (ht : t.IsBlank) : Remains kinds (t :: ts) ↔ Remains kinds ts := by
  constructor
  · intro h
    obtain ⟨front, behind, hall, hfront, hbehind⟩ := remains_iff.mp h
    cases front with
    | nil =>
      rw [List.nil_append] at hall
      rw [← hall] at hbehind
      simp [Token.IsBlank, hbehind.kind_eq] at ht
    | cons u front =>
      obtain ⟨rfl, rfl⟩ := List.cons.inj hall
      exact remains_iff.mpr ⟨front, behind, rfl, (derives_cons_blank_iff ht).mp hfront, hbehind⟩
  · intro h
    obtain ⟨front, behind, rfl, hfront, hbehind⟩ := remains_iff.mp h
    exact remains_iff.mpr ⟨t :: front, behind, rfl, .blank ht hfront, hbehind⟩

theorem remains_semicolon_iff (hheld : Held held) (hne : held ≠ [])
    (hsemicolon : delimiter.kind = .semicolon) :
    Remains kinds (held ++ delimiter :: ts) ↔
      IsStatement (kinds.headD .rules) held ∧ Remains kinds ts := by
  have hplain : ¬delimiter.IsPlain := fun hplain ↦ hplain.2.2 hsemicolon
  constructor
  · intro h
    obtain ⟨_, hbehind⟩ | ⟨front, behind, rfl, hbehind, hfront⟩ := h.cases_append_cons hheld
    · simp [hbehind.kind_eq] at hsemicolon
    · obtain ⟨_, hstatement, hrest⟩ | ⟨hopening, _⟩ := hfront.cases_append_cons hheld hplain
      · exact ⟨hstatement.resolve_left hne, remains_iff.mpr ⟨front, behind, rfl, hrest, hbehind⟩⟩
      · simp [hsemicolon] at hopening
  · rintro ⟨hstatement, h⟩
    obtain ⟨front, behind, rfl, hfront, hbehind⟩ := remains_iff.mp h
    refine remains_iff.mpr ⟨held ++ delimiter :: front, behind, by simp, ?_, hbehind⟩
    exact .statement hstatement hsemicolon hfront

theorem remains_openCurly_iff (hheld : Held held) (hopening : delimiter.kind = .openCurly) :
    Remains kinds (held ++ delimiter :: ts) ↔
      kinds.headD .rules = .rules ∧ ∃ inner, Opens held inner ∧ Remains (inner :: kinds) ts := by
  have hplain : ¬delimiter.IsPlain := fun hplain ↦ hplain.1 hopening
  constructor
  · intro h
    obtain ⟨_, hbehind⟩ | ⟨front, behind, rfl, hbehind, hfront⟩ := h.cases_append_cons hheld
    · simp [hbehind.kind_eq] at hopening
    · obtain ⟨hsemicolon, _⟩ | ⟨_, hrules, inner, body, closing, rest, rfl, hclosing, hopens, hbody,
        hrest⟩ := hfront.cases_append_cons hheld hplain
      · simp [hopening] at hsemicolon
      · rw [← hrules] at hrest
        refine ⟨hrules, inner, hopens, body, closing, rest ++ behind, by simp, hclosing, hbody, ?_⟩
        exact remains_iff.mpr ⟨rest, behind, rfl, hrest, hbehind⟩
  · rintro ⟨hrules, inner, hopens, h⟩
    obtain ⟨body, closing, rest, rfl, hclosing, hbody, hrest⟩ := h
    obtain ⟨front, behind, rfl, hfront, hbehind⟩ := remains_iff.mp hrest
    refine remains_iff.mpr
      ⟨held ++ delimiter :: body ++ closing :: front, behind, by simp, ?_, hbehind⟩
    rw [hrules] at hfront ⊢
    exact .block hopens hopening hclosing hbody hfront

theorem remains_closeCurly_iff (hheld : Held held) (hclosing : delimiter.kind = .closeCurly) :
    Remains kinds (held ++ delimiter :: ts) ↔
      match kinds with
      | [] => False
      | kind :: outer => (held = [] ∨ IsStatement kind held) ∧ Remains outer ts := by
  have hplain : ¬delimiter.IsPlain := fun hplain ↦ hplain.2.1 hclosing
  constructor
  · intro h
    obtain ⟨hfront, hbehind⟩ | ⟨front, behind, rfl, hbehind, hfront⟩ := h.cases_append_cons hheld
    · cases kinds with
      | nil => contradiction
      | cons kind outer =>
        obtain ⟨closing, rest, hall, _, hrest⟩ := hbehind
        obtain ⟨rfl, rfl⟩ := List.cons.inj hall
        exact ⟨(derives_iff_of_held kind hheld).mp hfront, hrest⟩
    · obtain ⟨hsemicolon, _⟩ | ⟨hopening, _⟩ := hfront.cases_append_cons hheld hplain
      · simp [hclosing] at hsemicolon
      · simp [hclosing] at hopening
  · intro h
    cases kinds with
    | nil => contradiction
    | cons kind outer =>
      exact ⟨held, delimiter, ts, rfl, hclosing, (derives_iff_of_held kind hheld).mpr h.1, h.2⟩

theorem remains_held_iff (hheld : Held held) :
    Remains kinds held ↔ kinds = [] ∧ (held = [] ∨ IsStatement .rules held) := by
  cases kinds with
  | nil => simpa [Remains] using derives_iff_of_held .rules hheld
  | cons kind outer =>
    refine ⟨?_, fun h ↦ nomatch h.1⟩
    rintro ⟨body, closing, rest, rfl, hclosing, _⟩
    exact absurd hclosing (hheld.plain closing (by simp)).2.1

theorem Derives.starts (h : Derives kind (t :: ts)) (ht : t.IsPlain) (hblank : ¬t.IsBlank) :
    t.StartsAt ∨ t.StartsSelector := by
  generalize hall : t :: ts = all at h
  cases h with
  | nil => contradiction
  | last h =>
    rw [← hall] at h
    exact h.starts
  | blank h _ =>
    obtain ⟨rfl, -⟩ := List.cons.inj hall
    exact absurd h hblank
  | @statement _ semicolon us _ h hsemicolon hts =>
    cases us with
    | nil => exact absurd rfl h.ne_nil
    | cons u us =>
      obtain ⟨rfl, -⟩ := List.cons.inj hall
      exact h.starts
  | @block _ opening _ head _ _ h hopening hclosing hbody hts =>
    cases head with
    | nil =>
      obtain ⟨rfl, -⟩ := List.cons.inj hall
      exact absurd hopening ht.1
    | cons u us =>
      obtain ⟨rfl, -⟩ := List.cons.inj hall
      exact h.starts

theorem Remains.starts (h : Remains kinds (t :: ts)) (ht : t.IsPlain) (hblank : ¬t.IsBlank) :
    t.StartsAt ∨ t.StartsSelector := by
  obtain ⟨front, behind, hall, hfront, hbehind⟩ := remains_iff.mp h
  cases front with
  | nil =>
    rw [List.nil_append] at hall
    rw [← hall] at hbehind
    exact absurd hbehind.kind_eq ht.2.1
  | cons u front =>
    obtain ⟨rfl, -⟩ := List.cons.inj hall
    exact hfront.starts ht hblank

end Grammar

end Stylesheet
