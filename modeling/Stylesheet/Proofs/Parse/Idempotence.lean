import Stylesheet.Proofs.Parse.Completed

/-!
# One pass of repairs

What a lenient parse prints needs no further repair, so parsing it again changes nothing
(`parse_text_iff`). Two things can go wrong. A text that starts with a byte order mark loses
it, and a brace that is printed for a block can be swallowed by what the text ends with, so that
another one is printed behind it.
-/

namespace Stylesheet

open Text Parse

/-- The end of the text closes a block, and what the text ends with swallows the brace. -/
def SwallowsBraces (options : Options) (text : String) : Prop :=
  (read options text).events.any Event.isClosing = true ∧
    ∃ t, (tokenize text).getLast? = some t ∧ t.swallows = true

/-- The text ends inside of a statement without a colon, and the statement is among declarations. -/
def EndsInProperty (options : Options) (text : String) : Prop :=
  ∃ s, (tokenize text).foldlM (State.step options.context)
    (start options.context text (tokenize text)) = .ok s ∧ s.LacksColon

namespace Parse

/-- The delimiters that are missing at the end of the text. -/
def missing (context : Context) (text : String) : String :=
  if (reached context (tokenize text)).ended then ""
  else commentEnd (tokenize text) ++ closers (reached context (tokenize text)).frames.length

variable {context : Context} {text : String}

theorem commentEnd_concat (front : List Token) (t : Token) :
    commentEnd (front ++ [t]) = String.ofList t.ending := by
  unfold commentEnd Token.ending
  rw [List.getLast?_concat]
  by_cases hopen : t.kind = .comment ∧ t.unclosed <;> simp [hopen]

theorem ending_of_swallows {t : Token} (h : t.swallows = true) : t.ending = [] := by
  have hkind : t.kind ≠ .comment := by
    intro hcomment
    simp [Token.swallows, hcomment] at h
  simp [Token.ending, hkind]

/-- No mark is among the delimiters. -/
theorem not_mem_missing (context : Context) (text : String) :
    '\uFEFF' ∉ (missing context text).toList := by
  unfold missing commentEnd closers
  split
  · simp
  · split <;> simp

theorem frames_of_missing (h : missing context text = "") :
    (reached context (tokenize text)).ended = true ∨
      (reached context (tokenize text)).frames = [] := by
  rw [missing] at h
  cases hended : (reached context (tokenize text)).ended with
  | true => exact .inl rfl
  | false =>
    rw [hended, if_neg Bool.false_ne_true, ← String.toList_inj, String.toList_append] at h
    have hclosers := (List.append_eq_nil_iff.mp h).2
    simp only [closers, String.toList_ofList, List.replicate_eq_nil_iff] at hclosers
    exact .inr (List.eq_nil_of_length_eq_zero hclosers)

/-- Where nothing is missing, there is no block to close. -/
theorem completion_of_missing (h : missing context text = "") :
    (reached context (tokenize text)).completion context =
      (reached context (tokenize text)).conclusion context := by
  unfold State.completion State.conclusion
  rcases frames_of_missing h with hended | hframes
  · rw [if_pos hended, if_pos hended]
  · rw [hframes]
    rfl

/-- The tokens of the completed text, where there is anything to complete. -/
theorem exists_completed (hopen : (reached context (tokenize text)).ended = false)
    (hmissing : missing context text ≠ "") {completed : String}
    (hcompleted : stripMark completed.toList =
      stripMark text.toList ++ (missing context text).toList) :
    ∃ front t last braces, tokenize text = front ++ [t] ∧
      tokenize completed = front ++ last :: braces ∧
      t.Completes (reached context (tokenize text)).frames.length last braces := by
  have htokens : tokenize text ≠ [] := by
    intro hempty
    apply hmissing
    rw [missing, hempty]
    rfl
  obtain ⟨front, t, hfront, hall⟩ := exists_tokenize_completed text htokens
  rw [missing, hopen, if_neg Bool.false_ne_true] at hcompleted
  obtain ⟨last, braces, hlonger, hcompletes⟩ :=
    hall (reached context (tokenize text)).frames.length completed (by
      rw [hcompleted, hfront, commentEnd_concat, closers, String.toList_append,
        String.toList_ofList, String.toList_ofList])
  exact ⟨front, t, last, braces, hfront, hlonger, hcompletes⟩

theorem text_treeOf_missing (context : Context) (text : String) :
    (treeOf context (tokenize text)).text = withoutMark text ++ missing context text :=
  text_treeOf context text

theorem stripMark_completed
    (hmark : (treeOf context (tokenize text)).text.toList.head? ≠ some '\uFEFF') :
    stripMark (treeOf context (tokenize text)).text.toList =
      stripMark text.toList ++ (missing context text).toList := by
  rw [stripMark_of_head?_ne hmark, text_treeOf_missing, String.toList_append, toList_withoutMark]

/-- A byte order mark at the front of a text is not printed again. -/
theorem text_treeOf_ne_of_mark (h : text.toList.head? = some '\uFEFF') :
    (treeOf context (tokenize text)).text ≠ text := by
  obtain ⟨cs, hcs⟩ := List.head?_eq_some_iff.mp h
  have hmissing : (missing context text).toList.count '\uFEFF' = 0 :=
    List.count_eq_zero.mpr (not_mem_missing context text)
  intro hsame
  have hcount := congrArg (fun text : String ↦ text.toList.count '\uFEFF') hsame
  rw [text_treeOf_missing, String.toList_append, toList_withoutMark, List.count_append, hmissing,
    hcs, List.count_cons_self] at hcount
  have hstrip : stripMark ('\uFEFF' :: cs) = cs := rfl
  rw [hstrip] at hcount
  omega

/-- Behind a brace that is swallowed another one is printed. -/
theorem text_treeOf_ne_of_swallows
    (hmark : (treeOf context (tokenize text)).text.toList.head? ≠ some '\uFEFF') {t : Token}
    (ht : (tokenize text).getLast? = some t) (hswallows : t.swallows = true)
    (hopen : (reached context (tokenize text)).ended = false)
    (hframes : (reached context (tokenize text)).frames ≠ []) :
    (treeOf context (tokenize (treeOf context (tokenize text)).text)).text ≠
      (treeOf context (tokenize text)).text := by
  have hmissing : missing context text ≠ "" := by
    intro hempty
    rcases frames_of_missing hempty with hended | hnone
    · exact Bool.false_ne_true (hopen.symm.trans hended)
    · exact hframes hnone
  obtain ⟨front, u, last, braces, hfront, hcompleted, hcompletes⟩ :=
    exists_completed hopen hmissing (stripMark_completed hmark)
  rw [hfront, List.getLast?_concat, Option.some.injEq] at ht
  rw [← ht] at hswallows
  obtain ⟨hleft, hstill⟩ := frames_reached_swallowed hswallows hcompletes
    (List.length_pos_iff.mpr hframes) (by rw [hfront]) (by rw [← hfront]; exact hopen)
  rw [← hcompleted] at hleft hstill
  intro hsame
  rw [text_treeOf_missing, withoutMark_of_head?_ne hmark] at hsame
  have hempty : missing context (treeOf context (tokenize text)).text = "" := by
    rw [← String.toList_inj, String.toList_append] at hsame
    rw [← String.toList_inj]
    exact List.append_right_eq_self.mp hsame
  rcases frames_of_missing hempty with hended | hnone
  · exact Bool.false_ne_true (hstill.symm.trans hended)
  · exact absurd hleft (by rw [hnone]; exact Nat.lt_irrefl 0)

/-- Where no brace is swallowed, the printed text is read to the end, and the blocks are closed by
its braces. -/
theorem treeOf_text_treeOf (hfatal : State.fatalIn? context {} (tokenize text) = none)
    (hmark : (treeOf context (tokenize text)).text.toList.head? ≠ some '\uFEFF')
    (hkeeps : ∀ t, (tokenize text).getLast? = some t → t.swallows = true →
      (reached context (tokenize text)).ended = true ∨
        (reached context (tokenize text)).frames = []) :
    State.fatalIn? context {} (tokenize (treeOf context (tokenize text)).text) = none ∧
      treeOf context (tokenize (treeOf context (tokenize text)).text) =
        ((reached context (tokenize text)).completion context).tree context.file := by
  have hstrip := stripMark_completed hmark
  by_cases hmissing : missing context text = ""
  · rw [hmissing, String.toList_empty, List.append_nil] at hstrip
    rw [tokenize_congr hstrip]
    exact ⟨hfatal, by rw [treeOf, completion_of_missing hmissing]⟩
  have hopen : (reached context (tokenize text)).ended = false := by
    rw [← Bool.not_eq_true]
    intro hended
    exact hmissing (if_pos hended)
  obtain ⟨front, t, last, braces, hfront, hcompleted, hcompletes⟩ :=
    exists_completed hopen hmissing hstrip
  have hswallows : t.swallows = false := by
    rw [← Bool.not_eq_true]
    intro hswallows
    have hlast : (tokenize text).getLast? = some t := by rw [hfront, List.getLast?_concat]
    rcases hkeeps t hlast hswallows with hended | hframes
    · exact Bool.false_ne_true (hopen.symm.trans hended)
    · apply hmissing
      rw [missing, hopen, if_neg Bool.false_ne_true, hframes, hfront, commentEnd_concat,
        ending_of_swallows hswallows]
      rfl
  obtain ⟨halike, hlength⟩ := hcompletes.alike hswallows
  have ht : t.Shaped := shaped_of_mem_tokenize text t (by simp [hfront])
  have hlast : last.Shaped := shaped_of_mem_tokenize _ last (by rw [hcompleted]; simp)
  rw [hcompleted, treeOf]
  rw [hfront] at hfatal hlength hopen
  rw [conclusion_reached_completed ht hlast halike hcompletes.kind_braces hlength hopen, ← hfront]
  exact ⟨fatalIn?_completed hcompletes.kind_braces halike hfatal, rfl⟩

end Parse

/-! ## Parsing again -/

section

variable {options : Options} {text : String} (hlenient : options.strict = false)
variable (hfatal : State.fatalIn? options.context {} (tokenize text) = none)
include hlenient hfatal

theorem swallowsBraces_iff :
    SwallowsBraces options text ↔
      ((reached options.context (tokenize text)).ended = false ∧
        (reached options.context (tokenize text)).frames ≠ []) ∧
      ∃ t, (tokenize text).getLast? = some t ∧ t.swallows = true := by
  have hclosing : (read options text).events.any Event.isClosing = true ↔
      (reached options.context (tokenize text)).ended = false ∧
        (reached options.context (tokenize text)).frames ≠ [] := by
    rw [List.any_eq_true, ← List.countP_pos_iff, countP_isClosing_read options text hlenient hfatal,
      ← List.length_pos_iff]
    cases (reached options.context (tokenize text)).ended <;> simp
  rw [SwallowsBraces, hclosing]

theorem endsInProperty_iff :
    EndsInProperty options text ↔ (reached options.context (tokenize text)).LacksColon := by
  have hread := foldlM_start_lenient options.context text (tokenize text) hlenient
  rw [hfatal] at hread
  constructor
  · rintro ⟨s, hs, hlacks⟩
    obtain rfl := Except.ok.inj (hread.symm.trans hs)
    exact hlacks
  · intro hlacks
    exact ⟨_, hread, hlacks⟩

theorem parse_text_eq
    (hmark : (treeOf options.context (tokenize text)).text.toList.head? ≠ some '\uFEFF')
    (hkeeps : ¬SwallowsBraces options text) :
    parse options (treeOf options.context (tokenize text)).text =
      .ok (((reached options.context (tokenize text)).completion options.context).tree
        options.context.file) := by
  rw [parse_lenient_eq_ok_iff options _ hlenient]
  apply treeOf_text_treeOf hfatal hmark
  intro t ht hswallows
  rw [swallowsBraces_iff hlenient hfatal] at hkeeps
  by_cases hended : (reached options.context (tokenize text)).ended = true
  · exact .inl hended
  · rw [Bool.not_eq_true] at hended
    by_cases hframes : (reached options.context (tokenize text)).frames = []
    · exact .inr hframes
    · exact absurd ⟨⟨hended, hframes⟩, t, ht, hswallows⟩ hkeeps

end

/-- What a lenient parse prints can be parsed again, and then prints as it is, if and only if no
byte order mark stands in front of it and no brace has been swallowed. The parse is the same then,
node by node and with all positions, if and only if the text did not end in a property: the end of
the text makes a declaration of that, and a brace keeps it as text. -/
theorem parse_text_iff (options : Options) (text : String) (tree : Tree)
    (hlenient : options.strict = false) (h : parse options text = .ok tree) :
    ((∃ again, parse options tree.text = .ok again ∧ again.text = tree.text) ↔
      tree.text.toList.head? ≠ some '\uFEFF' ∧ ¬SwallowsBraces options text) ∧
    (tree.text.toList.head? ≠ some '\uFEFF' → ¬SwallowsBraces options text →
      (parse options tree.text = parse options text ↔ ¬EndsInProperty options text)) := by
  obtain ⟨hfatal, rfl⟩ := (parse_lenient_eq_ok_iff options text hlenient tree).mp h
  have hsound := (prints_reached options.context text).1
  have hagain := parse_text_eq hlenient hfatal
  constructor
  · constructor
    · rintro ⟨again, hparse, htext⟩
      obtain ⟨_, rfl⟩ := (parse_lenient_eq_ok_iff options _ hlenient again).mp hparse
      have hmark : (treeOf options.context (tokenize text)).text.toList.head? ≠ some '\uFEFF' := by
        intro hmark
        exact text_treeOf_ne_of_mark hmark htext
      refine ⟨hmark, fun hswallows ↦ ?_⟩
      obtain ⟨⟨hopen, hframes⟩, t, ht, hlast⟩ := (swallowsBraces_iff hlenient hfatal).mp hswallows
      exact text_treeOf_ne_of_swallows hmark ht hlast hopen hframes htext
    · rintro ⟨hmark, hkeeps⟩
      exact ⟨_, hagain hmark hkeeps, State.text_scope_completion options.context hsound⟩
  · intro hmark hkeeps
    rw [hagain hmark hkeeps, h, endsInProperty_iff hlenient hfatal]
    constructor
    · intro hsame hlacks
      have hopen : (reached options.context (tokenize text)).ended = false := by
        obtain ⟨_, statement, hstatement, _⟩ := hlacks
        rw [← Bool.not_eq_true]
        intro hended
        exact Option.some_ne_none statement (hstatement.symm.trans (hsound.ended hended).2)
      have hrules := congrArg Tree.rules (Except.ok.inj hsame)
      exact State.children_completion_ne options.context hlacks hopen (List.reverse_inj.mp hrules)
    · intro hcolon
      rw [State.completion_eq options.context hcolon]
      rfl

theorem parse_text_iff_unclosed_comment :
    ∃ tree, parse {} "a\x7b/*" = .ok tree ∧ parse {} tree.text = .ok tree ∧
      ∃ again, parse {} tree.text = .ok again ∧ again.text = tree.text := by
  cases h : parse {} "a\x7b/*" with
  | error e =>
    have hok : (parse {} "a\x7b/*").isOk = true := by decide +kernel
    rw [h] at hok
    contradiction
  | ok tree =>
    obtain ⟨hagain, hsame⟩ := parse_text_iff {} "a\x7b/*" tree rfl h
    have hmark : tree.text.toList.head? ≠ some '\uFEFF' := by
      have hhead : (parse {} "a\x7b/*").toOption.all
          (·.text.toList.head? != some '\uFEFF') = true := by decide +kernel
      rw [h] at hhead
      simpa [Except.toOption] using hhead
    have hkeeps : ¬SwallowsBraces {} "a\x7b/*" := by
      rintro ⟨-, t, ht, hswallows⟩
      have hlast : (tokenize "a\x7b/*").getLast?.any Token.swallows = false := by decide +kernel
      rw [ht, Option.any_some, hswallows] at hlast
      contradiction
    have hcolon : ¬EndsInProperty {} "a\x7b/*" := by
      rintro ⟨s, hs, -, statement, hstatement, -⟩
      have hnone : ((tokenize "a\x7b/*").foldlM (State.step (Options.context {}))
          (start (Options.context {}) "a\x7b/*" (tokenize "a\x7b/*"))).toOption.any
            (·.statement.isSome) = false := by decide +kernel
      rw [hs] at hnone
      simp [Except.toOption, hstatement] at hnone
    exact ⟨tree, rfl, ((hsame hmark hkeeps).mpr hcolon).trans h, hagain.mpr ⟨hmark, hkeeps⟩⟩

end Stylesheet
