import Stylesheet.Node.Printer
import Stylesheet.Parse.Statement
import Stylesheet.Proofs.Node.Marker
import Stylesheet.Proofs.Token.Shape

/-!
# Fields and the text they are cut from

A node that is made from tokens prints the text that was pending and then the text of its tokens,
nothing more and nothing less. One lemma for each kind of node says so.
-/

namespace Stylesheet

open Text

variable {before : String} {ts : List Token} {t : Token}

theorem splitTrailingSpace_append (ts : List Token) :
    (splitTrailingSpace ts).1 ++ (splitTrailingSpace ts).2 = ts := by
  unfold splitTrailingSpace
  split
  · next t ht =>
    obtain ⟨front, rfl⟩ := List.getLast?_eq_some_iff.mp ht
    split <;> simp
  · exact List.append_nil ts

theorem splitLeadingSpace_append (ts : List Token) :
    (splitLeadingSpace ts).1 ++ (splitLeadingSpace ts).2 = ts := by
  unfold splitLeadingSpace
  split
  · rfl
  · split <;> rfl

theorem keptText_splitTrailingSpace (ts : List Token) :
    keptText (splitTrailingSpace ts).1 ++ keptText (splitTrailingSpace ts).2 = keptText ts := by
  rw [← keptText_append, splitTrailingSpace_append]

theorem keptText_splitLeadingSpace (ts : List Token) :
    keptText (splitLeadingSpace ts).1 ++ keptText (splitLeadingSpace ts).2 = keptText ts := by
  rw [← keptText_append, splitLeadingSpace_append]

theorem Token.kept_of_kind_ne (h : t.kind ≠ .comment) : t.kept = t.text := by
  simp [Token.kept, h]

theorem Token.kept_of_closed (h : t.unclosed = false) : t.kept = t.text := by
  simp [Token.kept, h]

theorem Selector.addTo_ofTokens (before : String) (ts : List Token) :
    (Selector.ofTokens before ts).addTo "" = before ++ keptText ts := by
  simp only [Selector.ofTokens, Selector.addTo, String.empty_append, String.append_assoc,
    keptText_splitTrailingSpace]

theorem Prelude.addTo_ofTokens (before : String) (ts : List Token) (h : t.Shaped)
    (hkind : t.kind = .atWord) :
    (Prelude.ofTokens before t ts).addTo "" = before ++ keptText (t :: ts) := by
  obtain ⟨name, hname⟩ := h.atWord hkind
  have hkept : t.kept = "@" ++ String.ofList (t.text.toList.drop 1) := by
    rw [Token.kept_of_kind_ne (by simp [hkind]), hname]
    simp [String.ofList_cons]
  simp only [Prelude.ofTokens, Prelude.addTo, String.empty_append, String.append_assoc,
    keptText_splitTrailingSpace, keptText_splitLeadingSpace, keptText_cons, hkept]

/-! ## Statements -/

namespace Statement

@[simp]
theorem tokens_push (s : Statement) (t : Token) : (s.push t).tokens = s.tokens ++ [t] := by
  simp [tokens, push]

@[simp]
theorem first_splitSpace (s : Statement) : s.splitSpace.1.first = s.first := by
  unfold splitSpace
  split
  · split <;> rfl
  · rfl

theorem tokens_splitSpace (s : Statement) : s.splitSpace.1.tokens ++ s.splitSpace.2 = s.tokens := by
  unfold splitSpace
  split
  · next t more hmore =>
    split
    · simp [tokens, hmore]
    · simp
  · simp

theorem kind_of_mem_splitSpace {s : Statement} (h : t ∈ s.splitSpace.2) : t.kind = .space := by
  unfold splitSpace at h
  split at h
  · split at h
    · next hspace => exact List.mem_singleton.mp h ▸ hspace
    · exact absurd h List.not_mem_nil
  · exact absurd h List.not_mem_nil

end Statement

/-! ## Declarations -/

/-- What a reader splits off the end of a value, the marker and the blanks, is printed unchanged. -/
theorem Declaration.value_append_ending (before prop between : String) (written : List Char) :
    let marked := splitImportant? (dropTrailingBlanks written)
    let split := marked.getD (dropTrailingBlanks written, [])
    let d : Declaration :=
      { before, prop, between, value := String.ofList split.1, important := marked.isSome
        after := String.ofList (split.2 ++ trailingBlanks written) }
    d.value ++ d.ending = String.ofList written := by
  intro marked split d
  have hblanks : ∀ c ∈ trailingBlanks written, isBlank c = true :=
    fun c ↦ isBlank_of_mem_trailingBlanks
  have hending : d.ending = d.after := by
    cases h : marked with
    | none =>
      have hnone := splitImportant?_blanks hblanks
      simp [d, split, h, Declaration.ending, hnone]
    | some parts =>
      have hsome := splitImportant?_marker_append_blanks h hblanks
      simp [d, split, h, Declaration.ending, hsome]
  have hsplit : split.1 ++ split.2 = dropTrailingBlanks written := by
    cases h : marked with
    | none => simp [split, h]
    | some parts => simpa [split, h] using append_of_splitImportant? h
  rw [hending, ← String.ofList_append, ← List.append_assoc, hsplit, drop_append_trailingBlanks]

theorem Declaration.addTo_ofTokens? {d : Declaration}
    (h : Declaration.ofTokens? before ts = some d) : d.addTo "" = before ++ keptText ts := by
  have hsplit : ts.takeWhile (·.kind ≠ .colon) ++ ts.dropWhile (·.kind ≠ .colon) = ts :=
    List.takeWhile_append_dropWhile
  unfold Declaration.ofTokens? at h
  split at h
  · contradiction
  · next colon behind hbehind =>
    let front := splitTrailingSpace (ts.takeWhile (·.kind ≠ .colon))
    let back := splitLeadingSpace behind
    have hvalue := Declaration.value_append_ending before (keptText front.1)
      (keptText (front.2 ++ colon :: back.1)) (keptText back.2).toList
    rw [hbehind] at hsplit
    rw [← Option.some.inj h, Declaration.addTo, String.append_assoc]
    calc
      _ = "" ++ before ++ keptText front.1 ++ keptText (front.2 ++ colon :: back.1) ++
          keptText back.2 := by
        rw [String.ofList_toList] at hvalue
        exact congrArg _ hvalue
      _ = before ++
          (keptText (front.1 ++ front.2) ++ (colon.kept ++ keptText (back.1 ++ back.2))) := by
        simp [String.append_assoc]
      _ = before ++ keptText ts := by
        rw [splitTrailingSpace_append, splitLeadingSpace_append, ← keptText_cons,
          ← keptText_append, hsplit]

theorem Declaration.addTo_ofProperty (before : String) (ts : List Token) :
    (Declaration.ofProperty before ts).addTo "" = before ++ keptText ts := by
  have hending : (Declaration.ofProperty before ts).ending = "" := rfl
  rw [Declaration.addTo, hending]
  simp [Declaration.ofProperty]

/-- A declaration needs a colon and nothing else. -/
theorem Declaration.ofTokens?_eq_none_iff (before : String) (ts : List Token) :
    Declaration.ofTokens? before ts = none ↔ ∀ t ∈ ts, t.kind ≠ .colon := by
  have hsplit : ts.takeWhile (·.kind ≠ .colon) ++ ts.dropWhile (·.kind ≠ .colon) = ts :=
    List.takeWhile_append_dropWhile
  unfold Declaration.ofTokens?
  constructor
  · intro h t ht
    split at h
    · next hnil =>
      rw [hnil, List.append_nil] at hsplit
      rw [← hsplit] at ht
      simpa using List.all_eq_true.mp List.all_takeWhile t ht
    · contradiction
  · intro h
    have hnone : (ts ++ []).dropWhile (fun t : Token ↦ t.kind ≠ TokenKind.colon) = [] :=
      List.dropWhile_append_of_pos (by simpa using h)
    rw [List.append_nil] at hnone
    rw [hnone]

/-! ## Comments -/

/-- The content is what stands between the delimiters, whether the second is there or not. -/
theorem Comment.content_eq {inner : List Char}
    (h : t.text = String.ofList ('/' :: '*' :: inner ++ if t.unclosed then [] else ['*', '/'])) :
    Comment.content t = inner := by
  unfold Comment.content
  rw [h]
  cases t.unclosed <;> simp

theorem Comment.addTo_ofToken (before : String) (h : t.Shaped) (hkind : t.kind = .comment) :
    (Comment.ofToken before t).addTo "" = before ++ t.kept := by
  obtain ⟨inner, hinner⟩ := h.comment hkind
  have hkept : t.kept = "/*" ++ (String.ofList inner ++ "*/") := by
    unfold Token.kept
    rw [hinner]
    cases t.unclosed <;> simp [hkind, ← String.toList_inj]
  have hcontent : String.ofList inner = String.ofList (leadingBlanks inner) ++
      (String.ofList (dropTrailingBlanks (dropLeadingBlanks inner)) ++
        String.ofList (trailingBlanks (dropLeadingBlanks inner))) := by
    rw [← String.ofList_append, drop_append_trailingBlanks, ← String.ofList_append,
      leadingBlanks_append_drop]
  simp only [Comment.ofToken, Comment.addTo, Comment.content_eq hinner, hkept,
    String.empty_append, String.append_assoc]
  rw [hcontent]
  simp only [String.append_assoc]

end Stylesheet
