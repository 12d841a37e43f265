import Stylesheet.Proofs.Checked.Follow

/-!
# Parsing misses nothing

The machine reads every text to its end (`read?_eq`). It reports the events of the parse, and if the
parse succeeds it has filled the arena of the tree.
-/

namespace Stylesheet.Checked

open Parse

/-- The arena of the tree, and the events on the way. -/
def resultOf (context : Context) : Except Failure State → Run (Arena × List Event)
  | .ok s => .ok (Arena.ofTree (s.tree context.file), s.log)
  | .error failure => .error (.failed failure)

variable {context : Context} {text : String} {s : State} {first : Option Nat}

theorem length_layersAround (frames : List Frame) :
    (layersAround frames).length = frames.length := by
  induction frames with
  | nil => rfl
  | cons frame frames ih => rw [layersAround, List.length_cons, ih, List.length_cons]

theorem length_layers_machineOf :
    (machineOf context s first).layers.length = s.frames.length + 1 := by
  change (layersAround s.frames).length + 1 = _
  rw [length_layersAround]

namespace Machine

/-! ## The end of the text -/

theorem closeLayer_top (hframes : s.frames = []) :
    (do
      let m ← (machineOf context s first).closeLayer
      return (m.arena, m.log)) = resultOf context (.ok s) := by
  obtain ⟨scope, frames, statement, ended, log⟩ := s
  obtain rfl : frames = [] := hframes
  rfl

theorem closeLayers_machineOf {frames : List Frame} (hframes : s.frames = frames) :
    closeLayers frames.length (machineOf context s first) =
      resultOf context (.ok (frames.foldl
        (fun s frame ↦ (s.note (.closingBlock frame.position)).closeBlock) s)) := by
  induction frames generalizing s with
  | nil => exact closeLayer_top hframes
  | cons frame frames ih =>
    have hstart : (layerOf s.frames s.scope.pending).start = frame.position := by
      rw [hframes]
      rfl
    have hnoted : (s.note (.closingBlock frame.position)).frames = frame :: frames := hframes
    rw [List.length_cons, closeLayers, top_machineOf, ok_bind, hstart, note_machineOf,
      closeLayer_machineOf hnoted, ok_bind, List.foldl_cons]
    apply ih
    unfold State.closeBlock
    rw [hnoted]

theorem finish_machineOf (hgoing : s.ended = false)
    (h : Marks (Sheet.ofText context text) (tokenize text).length s.statement first) :
    (machineOf context s first).finish (Sheet.ofText context text) =
      resultOf context (s.finish context) := by
  have hmode : (Sheet.ofText context text).context.strict = context.strict := rfl
  have hsize : (Sheet.ofText context text).tokens.size = (tokenize text).length := rfl
  have hclose (hopen : ¬(context.strict = true ∧ 1 < s.frames.length + 1)) :
      (machineOf context s first).finish (Sheet.ofText context text) =
        resultOf context (s.cutStatement context .endOfText >>= fun s ↦
          .ok (s.frames.foldl
            (fun s frame ↦ (s.note (.closingBlock frame.position)).closeBlock) s)) := by
    rw [finish, length_layers_machineOf, hmode, if_neg hopen, hsize, cutStatement_machineOf h]
    cases s.cutStatement context .endOfText with
    | error failure => rfl
    | ok s =>
      change closeLayers ((machineOf context s none).layers.length - 1) _ = _
      rw [length_layers_machineOf, Nat.add_sub_cancel]
      exact closeLayers_machineOf rfl
  rw [State.finish, hgoing, if_neg Bool.false_ne_true]
  cases hstrict : context.strict with
  | false => exact hclose (by simp [hstrict])
  | true =>
    cases hframes : s.frames with
    | nil => exact hclose (by simp [hframes])
    | cons frame frames =>
      have hstart : (layerOf s.frames s.scope.pending).start = frame.position := by
        rw [hframes]
        rfl
      have hopen : context.strict = true ∧ 1 < s.frames.length + 1 := by simp [hstrict, hframes]
      rw [finish, length_layers_machineOf, hmode, if_pos hopen, top_machineOf, ok_bind, hstart]
      rfl

/-! ## A brace that closes nothing -/

theorem foldlM_ended (context : Context) (hended : s.ended = true) (ts : List Token) :
    ts.foldlM (State.step context) s = .ok (s.addText (String.join (ts.map Token.text))) := by
  induction ts generalizing s with
  | nil =>
    change Except.ok s = .ok { s with scope := { s.scope with pending := s.scope.pending ++ "" } }
    rw [String.append_empty]
  | cons t ts ih =>
    have hlater := ih (s := s.addText t.text) hended
    rw [List.foldlM_cons, State.step, if_pos hended]
    change ts.foldlM (State.step context) (s.addText t.text) = _
    rw [hlater, List.map_cons, String.join_cons]
    simp [State.addText, Scope.addText, String.append_assoc]

theorem heldText_machineOf {index : Nat}
    (h : Marks (Sheet.ofText context text) index s.statement first) :
    (machineOf context s first).heldText (Sheet.ofText context text) index =
      .ok (keptText s.heldTokens) := by
  unfold State.heldTokens
  generalize s.statement = statement at h
  cases h with
  | nothing => rfl
  | held spans hfirst => exact spans.slice_eq

/-- At the top the arena is that of the tree, whatever stands behind the nodes. -/
theorem arena_machineOf (hframes : s.frames = []) (after : String) :
    { (machineOf context s first).arena with after } =
      Arena.ofTree ({ s with scope := { s.scope with pending := after } }.tree context.file) := by
  obtain ⟨scope, frames, statement, ended, log⟩ := s
  obtain rfl : frames = [] := hframes
  rfl

theorem stop_machineOf {before ts : List Token} {t : Token}
    (hts : tokenize text = before ++ t :: ts) (hgoing : s.ended = false)
    (h : Marks (Sheet.ofText context text) before.length s.statement first)
    (hkind : t.kind = .closeCurly) (hframes : s.frames = []) :
    (machineOf context s first).stop (Sheet.ofText context text) before.length t =
      resultOf context ((t :: ts).foldlM (State.step context) s >>= State.finish context) := by
  have hmode : (Sheet.ofText context text).context.strict = context.strict := rfl
  rw [List.foldlM_cons, State.step, hgoing, if_neg Bool.false_ne_true, hkind]
  dsimp only
  rw [State.readCloseCurly, hframes]
  dsimp only
  rw [stop, hmode]
  cases context.strict with
  | true => rfl
  | false =>
    let ended : State :=
      { s.note (.unexpectedCloseBrace t.start) with statement := none, ended := true }.addText
        (keptText s.heldTokens ++ t.text)
    have hended : ended.ended = true := rfl
    have hlater := foldlM_ended context hended ts
    rw [if_neg Bool.false_ne_true, if_neg Bool.false_ne_true, top_machineOf, ok_bind,
      heldText_machineOf h, ok_bind, Sheet.sliceFrom_token context hts, ok_bind]
    change _ = resultOf context (ts.foldlM (State.step context) ended >>= _)
    have hafter : s.scope.pending ++ keptText s.heldTokens ++ String.ofList (textOf (t :: ts)) =
        s.scope.pending ++ (keptText s.heldTokens ++ t.text) ++
          String.join (ts.map Token.text) := by
      rw [textOf, String.ofList_toList, List.map_cons, String.join_cons]
      simp only [String.append_assoc]
    rw [hlater]
    dsimp only
    rw [arena_machineOf hframes]
    change Except.ok (Arena.ofTree ({ s with
      scope := { s.scope with pending := s.scope.pending ++ _ ++ _ } }.tree _), _) = _
    rw [hafter]
    rfl

/-! ## The run -/

theorem run_machineOf {before ts : List Token} (hts : tokenize text = before ++ ts)
    (hgoing : s.ended = false)
    (h : Marks (Sheet.ofText context text) before.length s.statement first) :
    run (Sheet.ofText context text) ts.length before.length (machineOf context s first) =
      resultOf context (ts.foldlM (State.step context) s >>= State.finish context) := by
  induction ts generalizing before s first with
  | nil =>
    rw [List.append_nil] at hts
    rw [← hts] at h
    rw [List.length_nil, run, intact_machineOf, ok_bind]
    exact finish_machineOf hgoing h
  | cons t ts ih =>
    have ht : (Sheet.ofText context text).Spans before.length (before.length + 1) [t] :=
      ⟨before, ts, by simpa [Sheet.ofText] using hts, rfl, rfl⟩
    rw [List.length_cons, run, intact_machineOf, ok_bind, ht.token_eq, ok_bind,
      length_layers_machineOf]
    split
    · next hstop =>
      exact stop_machineOf hts hgoing h hstop.1 (by simpa using hstop.2)
    · next hgo =>
      have hframes : t.kind = .closeCurly → s.frames ≠ [] := fun hkind hnil ↦
        hgo ⟨hkind, by rw [hnil]; rfl⟩
      have hfollows := follows_step hgoing h ht hframes
      rw [List.foldlM_cons]
      generalize step _ _ _ t = result at hfollows
      generalize s.step context t = next at hfollows
      cases hfollows with
      | error failure => rfl
      | @ok s first hgoing hmarks =>
        have hbefore : (before ++ [t]).length = before.length + 1 := List.length_append
        rw [List.append_cons] at hts
        rw [← hbefore] at hmarks ⊢
        exact ih hts hgoing hmarks

end Machine

theorem read?_eq (options : Options) (text : String) :
    read? options text =
      some ((read options text).events, (read options text).result.map Arena.ofTree) := by
  let context : Context := ⟨options.strict, options.file⟩
  let sheet := Sheet.ofText context text
  have hrun : Machine.run sheet sheet.tokens.size 0 (Machine.start sheet text) =
      resultOf context (Parse.run context text (tokenize text)) :=
    Machine.run_machineOf (s := Parse.start context text (tokenize text)) (List.nil_append _).symm
      rfl .nothing
  unfold read? read
  dsimp only
  rw [hrun]
  cases Parse.run context text (tokenize text) with
  | error failure => rfl
  | ok s =>
    dsimp only [resultOf]
    rw [Arena.size_ofTree]
    rfl

end Stylesheet.Checked
