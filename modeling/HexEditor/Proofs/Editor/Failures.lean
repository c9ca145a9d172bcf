import HexEditor.Proofs.Editor.Grouping
import HexEditor.Proofs.Editor.Notices

/-!
# Keys that fail

A key that tells a failure has done nothing to the open sessions and to the registers.  The same
holds of a key that ends in a fault, wherever its handling stops.

A notice stays until the next one, so what a key tells itself is seen on an editor that has
told nothing before.  The one command that can fail when part of its work is done is the one
that saves all sessions: those before the first refusal count as saved, and nothing else has
happened to them.

Main results:

- Theorems `Editor.exists_press_of_report` and `Editor.exists_press_of_writeAll`: keys that tell
  a failure.
- Definitions `Editor.steps` and `Editor.runSteps`, and theorem `Editor.runSteps_steps`: the
  handling of a key as a sequence of steps.
- Theorem `Editor.failed_key_keeps`: a key that fails leaves the sessions and the registers.
-/

namespace HexEditor

namespace Editor

variable {ed : Editor} {key : Key}

/-! ## Failures that are told -/

/-- What a key tells itself, seen where nothing has been told before. -/
def report (ed : Editor) (key : Key) : Notice :=
  match (ed.tell .blank).press key with
  | .ok ed' => ed'.notice
  | .error _ => .blank

/-- A key that tells a failure tells it whatever has been told before, and keeps the sessions
and the registers. -/
theorem exists_press_of_report (hfailure : (ed.report key).isFailure = true)
    (hcommand : ed.lineCommand? key ≠ some .writeAll) :
    ∃ ed', ed.press key = .ok ed' ∧ ed'.notice = ed.report key ∧ ed.Keeps ed' := by
  rw [report] at hfailure ⊢
  rcases hpress : (ed.tell .blank).press key with fault | ed'
  · rw [hpress] at hfailure
    cases hfailure
  · rw [hpress] at hfailure
    dsimp only at hfailure ⊢
    rcases tellsCleanly_press ed hcommand with hsilent | ⟨hconst, hclean⟩
    · -- a key that passes the notice on has told no failure
      have hpassed := hsilent .blank
      dsimp only at hpassed
      rw [hpress] at hpassed
      have hsame : ed' = ed'.tell .blank := Except.ok.inj hpassed
      rw [hsame] at hfailure
      cases hfailure
    · have htold := hconst ed.notice
      dsimp only at htold
      rw [hpress] at htold
      exact ⟨ed', htold, rfl, hclean ed' hpress hfailure⟩

/-- A key that saves all sessions and fails tells so whatever has been told before, and it
changes no more than which versions count as saved. -/
theorem exists_press_of_writeAll (hfailure : (ed.report key).isFailure = true)
    (hcommand : ed.lineCommand? key = some .writeAll) :
    ∃ ed', ed.press key = .ok ed' ∧ ed'.notice = ed.report key ∧
      ed'.registers = ed.registers ∧ ed'.workspace.current = ed.workspace.current ∧
      List.Forall₂ (fun s t => t = s ∨ t = s.markSaved) ed.workspace.sessions
        ed'.workspace.sessions := by
  rw [report] at hfailure ⊢
  rcases hquit : ed.quit with _ | _
  · rcases hs : ed.workspace.current? with _ | s
    · simp only [press, tell, hquit, Bool.false_eq_true, if_false, hs] at hfailure
      cases hfailure
    · rcases exists_of_lineCommand? hcommand with ⟨prompt, args, hmode, rfl, hline⟩
      have hpress : ∀ notice, (ed.tell notice).press .enter =
          .ok { ed.enter .normal with
            workspace := (ed.workspace.writeAll ed.disk).1
            disk := (ed.workspace.writeAll ed.disk).2.1
            notice := .file (ed.workspace.writeAll ed.disk).2.2 } := by
        intro notice
        rw [press_tell_eq hquit hs, hmode]
        simp only [pressCommand, execute, hline]
        rfl
      rw [hpress]
      exact ⟨_, hpress ed.notice, rfl, rfl, rfl, Workspace.forall₂_saveEach ..⟩
  · simp only [press, tell, hquit, if_true] at hfailure
    cases hfailure

/-! ## Faults -/

/-- Carry out steps one after the other.  At the first fault the state is left as the steps
before have made it. -/
def runSteps : List (Editor → Except Fault Editor) → Editor → Except (Fault × Editor) Editor
  | [], ed => .ok ed
  | step :: steps, ed =>
    match step ed with
    | .error fault => .error (fault, ed)
    | .ok next => runSteps steps next

/-- The steps of a cut. -/
def cutSteps (s : Session) : List (Editor → Except Fault Editor) :=
  [fun ed => ed.copy s, fun ed => ed.edit s (s.buffer.delete s.selections)]

/-- The steps in which a key is handled.  The commands that cut write the register, and those
that go on to insert also open a group, before the bytes are deleted.  All other keys change
the sessions and the registers in one step. -/
def steps (ed : Editor) (key : Key) : List (Editor → Except Fault Editor) :=
  let clear (ed : Editor) : Except Fault Editor := .ok { ed with count := .empty, notice := .blank }
  let beginIn (encoding : Encoding) (ed : Editor) : Except Fault Editor :=
    .ok (ed.beginInsert encoding .before)
  match ed.workspace.current? with
  | none => [fun ed => ed.press key]
  | some s =>
    if ed.quit ∨ ed.mode ≠ .normal ∨ (countKey? ed.count key).isSome then [fun ed => ed.press key]
    else if key = .plain (code 'd') then clear :: cutSteps s
    else if key = .plain (code 'c') then clear :: beginIn .ascii :: cutSteps s.beginGroup
    else if key = .plain (code 'C') then clear :: beginIn .hex :: cutSteps s.beginGroup
    else [fun ed => ed.press key]

theorem runSteps_singleton (step : Editor → Except Fault Editor) (ed : Editor) :
    runSteps [step] ed = (step ed).mapError fun fault => (fault, ed) := by
  rw [runSteps]
  rcases step ed with fault | next
  · rfl
  · rfl

theorem runSteps_cutSteps (ed : Editor) (s : Session) :
    (runSteps (cutSteps s) ed).mapError Prod.fst = ed.cut s := by
  rw [cutSteps, runSteps, cut]
  rcases ed.copy s with fault | copied
  · rfl
  · dsimp only
    rw [runSteps_singleton]
    rcases s.buffer.delete s.selections with error | e
    · rfl
    · rfl

/-- The steps are those of the key.  It is handled in a single one, or it cannot end in a
fault. -/
theorem runSteps_steps (ed : Editor) (key : Key) :
    (runSteps (ed.steps key) ed).mapError Prod.fst = ed.press key ∧
      (ed.steps key = [fun ed => ed.press key] ∨
        ((∀ s ∈ ed.workspace.sessions, s.Valid) → Succeeds (ed.press key))) := by
  have hwhole : (runSteps [fun ed => ed.press key] ed).mapError Prod.fst = ed.press key := by
    rw [runSteps_singleton]
    rcases ed.press key with fault | next
    · rfl
    · rfl
  rw [steps]
  rcases hs : ed.workspace.current? with _ | s
  · exact ⟨hwhole, .inl rfl⟩
  · dsimp only
    by_cases hother : ed.quit ∨ ed.mode ≠ .normal ∨ (countKey? ed.count key).isSome
    · rw [if_pos hother]
      exact ⟨hwhole, .inl rfl⟩
    · rw [if_neg hother]
      simp only [not_or, Bool.not_eq_true, ne_eq, not_not, Option.isSome_eq_false_iff,
        Option.isNone_iff_eq_none] at hother
      rcases hother with ⟨hquit, hmode, hcount⟩
      have hvalid := fun hsessions : ∀ s ∈ ed.workspace.sessions, s.Valid =>
        hsessions s (Workspace.mem_of_current? hs)
      -- a key that cuts, from the state that the steps before have made
      have hcutting : ∀ (base : Editor) (t : Session), ed.press key = base.cut t →
          ((∀ s ∈ ed.workspace.sessions, s.Valid) → t.Valid) →
          (runSteps (cutSteps t) base).mapError Prod.fst = ed.press key ∧
            ((∀ s ∈ ed.workspace.sessions, s.Valid) → Succeeds (ed.press key)) := by
        intro base t hcut ht
        rw [hcut]
        exact ⟨runSteps_cutSteps base t, fun hsessions => succeeds_cut base (ht hsessions)⟩
      split_ifs with hd hc hC
      · subst hd
        rcases hcutting _ s (press_plain_eq_command hquit hmode hs hcount rfl) hvalid with
          ⟨hsteps, hsucceeds⟩
        exact ⟨hsteps, .inr hsucceeds⟩
      · subst hc
        rcases hcutting _ _ (press_plain_eq_command hquit hmode hs hcount rfl)
          (fun hsessions => (hvalid hsessions).beginGroup) with ⟨hsteps, hsucceeds⟩
        exact ⟨hsteps, .inr hsucceeds⟩
      · subst hC
        rcases hcutting _ _ (press_plain_eq_command hquit hmode hs hcount rfl)
          (fun hsessions => (hvalid hsessions).beginGroup) with ⟨hsteps, hsucceeds⟩
        exact ⟨hsteps, .inr hsucceeds⟩
      · exact ⟨hwhole, .inl rfl⟩

/-- A fault leaves the sessions and the registers, wherever the steps of the key stop. -/
theorem exists_runSteps_of_press_error (hvalid : ∀ s ∈ ed.workspace.sessions, s.Valid)
    {fault : Fault} (hfault : ed.press key = .error fault) :
    ∃ left, runSteps (ed.steps key) ed = .error (fault, left) ∧ ed.Keeps left := by
  rcases runSteps_steps ed key with ⟨hsteps, hsingle | hsucceeds⟩
  · refine ⟨ed, ?_, .refl ed⟩
    rw [hsingle, runSteps_singleton, hfault]
    rfl
  · exact absurd hfault ((hsucceeds hvalid).ne_error fault)

/-! ## Keys that fail -/

/-- In every state that can come up, a key that fails leaves all open sessions, with their
versions, selections, histories, saved versions and paths, the choice of the current one, and
the registers as they were.

A key fails if it tells a failure, which is seen by what it tells where nothing has been told
before, or if it ends in a fault, which may stop it between two of its steps.  Saving all
sessions stops at the first file that is refused, and the versions of the sessions before it
count as saved then; otherwise it leaves everything as well. -/
theorem failed_key_keeps (h : ed.Reachable) (key : Key) :
    ((ed.report key).isFailure = true →
      ∃ ed', ed.press key = .ok ed' ∧ ed'.notice = ed.report key ∧
        ed'.registers = ed.registers ∧ ed'.workspace.current = ed.workspace.current ∧
        List.Forall₂ (fun s t => t = s ∨ t = s.markSaved) ed.workspace.sessions
          ed'.workspace.sessions ∧
        (ed.lineCommand? key ≠ some .writeAll → ed'.workspace = ed.workspace)) ∧
    ∀ fault, ed.press key = .error fault →
      (runSteps (ed.steps key) ed).mapError Prod.fst = ed.press key ∧
      ∃ left, runSteps (ed.steps key) ed = .error (fault, left) ∧
        left.workspace = ed.workspace ∧ left.registers = ed.registers := by
  constructor
  · intro hfailure
    by_cases hcommand : ed.lineCommand? key = some .writeAll
    · rcases exists_press_of_writeAll hfailure hcommand with
        ⟨ed', hpress, hnotice, hregisters, hcurrent, hsessions⟩
      exact ⟨ed', hpress, hnotice, hregisters, hcurrent, hsessions,
        fun hother => absurd hcommand hother⟩
    · rcases exists_press_of_report hfailure hcommand with ⟨ed', hpress, hnotice, hkeeps⟩
      refine ⟨ed', hpress, hnotice, hkeeps.registers, ?_, ?_, fun _ => hkeeps.workspace⟩
      · rw [hkeeps.workspace]
      · rw [hkeeps.workspace]
        exact List.forall₂_same.2 fun _ _ => .inl rfl
  · intro fault hfault
    rcases exists_runSteps_of_press_error h.valid hfault with ⟨left, hleft, hkeeps⟩
    exact ⟨(runSteps_steps ed key).1, left, hleft, hkeeps.workspace, hkeeps.registers⟩

/-- With nothing to undo, the key to undo fails; and where two selections crowd the end of the
file the backspace key ends in a fault.  Neither changes anything. -/
theorem failed_key_keeps_undo_backspace :
    (∃ ed, (start .empty .blank).press (.plain (code 'u')) = .ok ed ∧
      ed.notice = .nothingToUndo ∧ ed.workspace = (start .empty .blank).workspace ∧
      ed.registers = (start .empty .blank).registers) ∧
    ∃ ed fault left, crowdingKeys.foldlM press (start .empty .blank) = .ok ed ∧
      ed.press .backspace = .error fault ∧
      runSteps (ed.steps .backspace) ed = .error (fault, left) ∧
      left.workspace = ed.workspace ∧ left.registers = ed.registers := by
  refine ⟨?_, ?_⟩
  · have hstart : (start .empty .blank).Reachable := .start .empty
    have hreport : (start .empty .blank).report (.plain (code 'u')) = .nothingToUndo := by rfl
    have hfailure : ((start .empty .blank).report (.plain (code 'u'))).isFailure = true := by
      rw [hreport]
      rfl
    rcases (failed_key_keeps hstart (.plain (code 'u'))).1 hfailure with
      ⟨ed, hpress, hnotice, hregisters, -, -, hworkspace⟩
    exact ⟨ed, hpress, hnotice.trans hreport, hworkspace (by decide), hregisters⟩
  · have hcrowded : (crowdingKeys.foldlM press (start .empty .blank)).isOk = true := by
      cbv
    have hrun : ((crowdingKeys.foldlM press (start .empty .blank)).bind
        (fun ed => ed.press .backspace)).isOk = false := by
      cbv
    rcases hed : crowdingKeys.foldlM press (start .empty .blank) with fault | ed
    · rw [hed] at hcrowded
      cases hcrowded
    · rw [hed] at hrun
      have hreachable : ed.Reachable := (Reachable.start .empty).pressAll hed
      rcases hpress : ed.press .backspace with fault | next
      · rcases (failed_key_keeps hreachable .backspace).2 fault hpress with
          ⟨-, left, hleft, hworkspace, hregisters⟩
        exact ⟨ed, fault, left, rfl, hpress, hleft, hworkspace, hregisters⟩
      · simp only [Except.bind, hpress] at hrun
        cases hrun

end Editor

end HexEditor
