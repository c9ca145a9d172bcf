import HexEditor.Proofs.Editor.Reachable
import HexEditor.Proofs.Session.Descent

/-!
# The history of every session is linear

A run of the editor is instrumented with the versions that the open sessions began with.
Nothing else about the run changes, and every state that can come up is the state of such a
run.

Main results:

- Definition `Editor.Run` and theorem `Editor.Reachable.exists_run`: instrumented runs.
- Theorem `Editor.Run.linear`: every session is linear from the version it began with.
- Theorem `Editor.history_is_linear`: what that means for undoing and making again, and how
  every key moves a session along its line.
- Theorem `Editor.counted_undo_comes_back`: undoing several changes with one key can lead back
  to the version it set out from.
-/

namespace HexEditor

namespace Workspace

variable {directory : Location} {w : Workspace}

/-- Sessions that have only been opened are at the start of their lines. -/
theorem Opened.linear (h : w.Opened directory) :
    w.Linear (w.sessions.map (·.buffer)) := by
  apply linear_of_empty
  induction h with
  | empty =>
      intro s hs
      cases hs
  | openPath _ disk _ path ih =>
      exact forall_openPath ih (fun _ _ => ⟨rfl, Rope.sameVersion_complete _ _⟩)
        (fun _ => ⟨rfl, rfl⟩) disk path

end Workspace

namespace Editor

variable {ed ed' : Editor} {starts : List Rope}

/-! ## Runs -/

/-- The states of an editor, with the versions that the open sessions began with. -/
inductive Run : Editor → List Rope → Prop where
  /-- The editor has begun on files that were opened one after the other. -/
  | start {w : Workspace} {disk : Disk} (opened : w.Opened disk.directory) :
      Run (.start w disk) ((Editor.start w disk).workspace.sessions.map (·.buffer))
  /-- A line of a file of commands has been run. -/
  | execute {ed ed' : Editor} {starts : List Rope} {line : Text} (run : Run ed starts)
      (hmode : ed.mode = .normal) (executed : ed.execute line = .ok ed') :
      Run ed' (ed.workspace.beginnings ed'.workspace starts)
  /-- A notice is shown, as when that file cannot be read. -/
  | tell {ed : Editor} {starts : List Rope} (run : Run ed starts) (notice : Notice) :
      Run (ed.tell notice) starts
  /-- A key has been pressed. -/
  | press {ed ed' : Editor} {starts : List Rope} {key : Key} (run : Run ed starts)
      (pressed : ed.press key = .ok ed') :
      Run ed' (ed.workspace.beginnings ed'.workspace starts)
  /-- The files have been changed from outside. -/
  | disturb {ed : Editor} {starts : List Rope} (run : Run ed starts) {disk : Disk}
      (hdisk : disk.directory = ed.disk.directory) : Run { ed with disk } starts

theorem Run.executeAll {lines : List Text} (h : ed.Run starts) (hmode : ed.mode = .normal)
    (ran : lines.foldlM Editor.execute ed = .ok ed') : ∃ starts', ed'.Run starts' := by
  apply (foldlM_preserves (P := fun ed => ed.mode = .normal ∧ ∃ starts, ed.Run starts) _
    ⟨hmode, starts, h⟩ ran).2
  rintro ed ed' line ⟨hmode, starts, hrun⟩ hline
  exact ⟨(mode_of_execute hline).trans hmode, _, hrun.execute hmode hline⟩

/-- Keys that are pressed one after the other continue a run. -/
theorem Run.pressAll {keys : List Key} (h : ed.Run starts)
    (pressed : keys.foldlM Editor.press ed = .ok ed') : ∃ starts', ed'.Run starts' := by
  apply foldlM_preserves (P := fun ed => ∃ starts, ed.Run starts) _ ⟨starts, h⟩ pressed
  rintro ed ed' key ⟨starts, hrun⟩ hkey
  exact ⟨_, hrun.press hkey⟩

/-- Every state that can come up is the state of a run. -/
theorem Reachable.exists_run (h : ed.Reachable) : ∃ starts, ed.Run starts := by
  induction h with
  | start opened => exact ⟨_, .start opened⟩
  | configured opened ran =>
      have hstart := Run.start opened
      rw [runFile] at ran
      split_ifs at ran
      · split at ran
        · cases ran
          exact ⟨_, hstart.tell _⟩
        · exact hstart.executeAll rfl ran
      · cases ran
        exact ⟨_, hstart⟩
  | press _ pressed ih =>
      rcases ih with ⟨starts, hrun⟩
      exact ⟨_, hrun.press pressed⟩
  | disturb _ hdisk ih =>
      rcases ih with ⟨starts, hrun⟩
      exact ⟨_, hrun.disturb hdisk⟩

/-! ## Linearity -/

theorem linear_start {w : Workspace} {disk : Disk} (opened : w.Opened disk.directory) :
    (Editor.start w disk).workspace.Linear
      ((Editor.start w disk).workspace.sessions.map (·.buffer)) := by
  rw [Editor.start]
  dsimp only
  split_ifs with hempty
  · apply Workspace.linear_of_empty
    intro s hs
    rw [List.isEmpty_iff] at hempty
    rw [Workspace.openScratch, Workspace.add, hempty, List.nil_append, List.mem_singleton] at hs
    rw [hs]
    exact ⟨rfl, rfl⟩
  · exact opened.linear

/-- In every run all sessions are linear from the versions they began with, and groups are
open only where bytes are being typed. -/
theorem Run.linear (h : ed.Run starts) :
    ed.workspace.Grouped ed.mode.isEditing ∧ ed.workspace.Linear starts := by
  induction h with
  | start opened => exact ⟨grouped_start opened, linear_start opened⟩
  | @execute ed ed' starts line _ hmode executed ih =>
      have hediting : ed.mode.isEditing = false := by
        rw [hmode]
        rfl
      have hfollows : ed.Follows (fun _ => False) ed' :=
        followsTo_execute hediting line ed' executed
      have hturn := hfollows.turn
      exact ⟨ih.1.turn hturn, ih.2.turn ih.1 hturn⟩
  | tell _ _ ih => exact ih
  | @press ed ed' starts key _ pressed ih =>
      have hturn := (followsTo_press ed key ed' pressed).turn
      exact ⟨ih.1.turn hturn, ih.2.turn ih.1 hturn⟩
  | disturb _ _ ih => exact ih

/-- The history of every session in every run is one line of versions.

While no group is open, the changes that can be undone lead from the current version back to
the one the session began with, and those that can be made again lead on from it.  Undoing
some of them and making as many again gives the same version and the same history, whether
the changes are undone one by one or at once, and undoing all of them gives the version that
the session began with.

Every key moves a session along its line: it stays, or a change is committed and nothing can
be made again, or changes are undone by `u` or made again by `U`, one by one and no more than
the count says.  A key that does not lead to another version leaves what can be undone and made
again, unless it is `u` or `U` with a count of two or more: that can come back to the version
it set out from. -/
theorem history_is_linear (h : ed.Run starts) :
    starts.length = ed.workspace.sessions.length ∧
    ∀ (i : Nat) (s : Session) (start : Rope), ed.workspace.sessions[i]? = some s →
      starts[i]? = some start →
      (s.history.isGrouping = false →
        History.LeadsBack start s.history.done s.buffer ∧
        History.LeadsForth s.buffer s.history.undone ∧
        ∀ k ≤ s.history.depth, ∃ t u : Session,
          Session.goTimes History.undo? k s = some t ∧
          Session.goTimes History.redo? k t = some u ∧
          (0 < k → s.undo? k = some t ∧ t.redo? k = some u) ∧
          u.buffer.sameVersion s.buffer = true ∧ u.history = s.history ∧
          (k = s.history.depth → start.sameVersion t.buffer = true)) ∧
      ∀ (key : Key) (ed' : Editor) (j : Nat) (t : Session), ed.press key = .ok ed' →
        ed'.workspace.sessions[j]? = some t → ed.workspace.origin ed'.workspace j = i →
        s.Advances (ed.keyTrips key) t ∧
        (s.present.sameVersion t.present = true →
          (t.history.done = s.history.done ∧ t.history.undone = s.history.undone) ∨
          ed.mode = .normal ∧ ∃ k, 2 ≤ k ∧ k ≤ ed.count.valueOr 1 ∧
            (key = .plain (code 'u') ∧ Session.goTimes History.undo? k s = some t ∨
              key = .plain (code 'U') ∧ Session.goTimes History.redo? k s = some t)) := by
  rcases h.linear with ⟨hgrouped, hlinear⟩
  refine ⟨hlinear.length, ?_⟩
  intro i s start hs hstart
  have hline := hlinear.linear i s start hs hstart
  refine ⟨?_, ?_⟩
  · intro hgrouping
    have hopened := Session.isGrouping_eq_false_iff.1 hgrouping
    rcases (Session.linear_iff_of_closed hopened).1 hline with ⟨hback, hforth⟩
    refine ⟨hback, hforth, ?_⟩
    intro k hk
    rcases Session.exists_goTimes_undo? hk with ⟨t, ht⟩
    rcases hline.redo_of_undo_times hopened ht with ⟨u, hu, hhistory, hsame⟩
    refine ⟨t, u, ht, hu, ?_, hsame, hhistory, ?_⟩
    · intro hpos
      exact ⟨Session.undo?_of_goTimes hpos ht, Session.redo?_of_goTimes hpos hu⟩
    · rintro rfl
      exact hline.undo_all hopened ht
  · intro key ed' j t hpress ht horigin
    have hturn := (followsTo_press ed key ed' hpress).turn
    rcases hturn.came hgrouped j t ht with ⟨hnone, -⟩ | ⟨s', hs', hevolves⟩
    · rw [horigin, hs] at hnone
      cases hnone
    · rw [horigin, hs] at hs'
      cases hs'
      have hadvances := hline.advances hevolves
      refine ⟨hadvances, fun hsame => ?_⟩
      rcases hline.stacks_eq_of_sameVersion hadvances hsame with
        hstacks | ⟨count, k, hk, hcount, htrip⟩
      · exact .inl hstacks
      · right
        rcases htrip with ⟨⟨hmode, hkey, rfl⟩, hgone⟩ | ⟨⟨hmode, hkey, rfl⟩, hgone⟩
        · exact ⟨hmode, k, hk, by omega, .inl ⟨hkey, hgone⟩⟩
        · exact ⟨hmode, k, hk, by omega, .inr ⟨hkey, hgone⟩⟩

/-- After a letter has been inserted into an empty session, undoing the one change gives the
version that the session began with, and making it again gives the letter back. -/
theorem history_is_linear_letter :
    ∃ ed starts s start t u,
      [Key.plain (code 'i'), .plain (code 'a'), .escape].foldlM Editor.press
        (Editor.start .empty .blank) = .ok ed ∧
      ed.Run starts ∧ ed.workspace.sessions[0]? = some s ∧ starts[0]? = some start ∧
      s.history.depth = 1 ∧ s.undo? 1 = some t ∧ t.redo? 1 = some u ∧
      start.sameVersion t.buffer = true ∧ u.buffer.sameVersion s.buffer = true := by
  have hrun : ([Key.plain (code 'i'), .plain (code 'a'), .escape].foldlM Editor.press
      (Editor.start .empty .blank)).map (fun ed => ed.workspace.sessions.map fun s =>
        (s.history.depth, s.history.isGrouping)) = .ok [(1, false)] := by
    rfl
  rcases hed : [Key.plain (code 'i'), .plain (code 'a'), .escape].foldlM Editor.press
      (Editor.start .empty .blank) with fault | ed
  · rw [hed] at hrun
    cases hrun
  · rw [hed] at hrun
    simp only [Except.map, Except.ok.injEq, List.map_eq_singleton_iff, Prod.mk.injEq] at hrun
    rcases hrun with ⟨s, hsessions, hdepth, hgrouping⟩
    rcases (Run.start .empty).pressAll hed with ⟨starts, hstarts⟩
    rcases history_is_linear hstarts with ⟨hlength, hlinear⟩
    rw [hsessions] at hlength
    rcases starts with _ | ⟨start, others⟩
    · cases hlength
    · have hs : ed.workspace.sessions[0]? = some s := by rw [hsessions, List.getElem?_cons_zero]
      rcases (hlinear 0 s start hs List.getElem?_cons_zero).1 hgrouping with ⟨-, -, hwalk⟩
      rcases hwalk 1 (Nat.le_of_eq hdepth.symm) with ⟨t, u, -, -, hcounted, hsame, -, hall⟩
      rcases hcounted Nat.one_pos with ⟨ht, hu⟩
      exact ⟨ed, start :: others, s, start, t, u, rfl, hstarts, hs, List.getElem?_cons_zero,
        hdepth, ht, hu, hall hdepth.symm, hsame⟩

/-- The keys that insert a letter into an empty session and delete it again, followed by the
count two. -/
def rewriteKeys : List Key :=
  [.plain (code 'i'), .plain (code 'a'), .escape, .plain (code 'h'), .plain (code 'd'),
    .plain (code '2')]

/-- A letter has been inserted into an empty session and deleted again.  Undoing both changes with
one key leads back to the version it set out from, the one without bytes; but then nothing is left
to be undone, and both changes can be made again. -/
theorem counted_undo_comes_back :
    ∃ (ed ed' : Editor) (s t : Session),
      rewriteKeys.foldlM press (start .empty .blank) = .ok ed ∧ ed.Reachable ∧
      ed.press (.plain (code 'u')) = .ok ed' ∧
      ed.workspace.sessions[0]? = some s ∧ ed'.workspace.sessions[0]? = some t ∧
      ed.workspace.origin ed'.workspace 0 = 0 ∧
      s.history.isGrouping = false ∧ s.present.sameVersion t.present = true ∧
      s.history.done.length = 2 ∧ s.history.undone.length = 0 ∧
      t.history.done.length = 0 ∧ t.history.undone.length = 2 := by
  have hrun : (rewriteKeys.foldlM press (start .empty .blank) >>= fun ed =>
      (ed.press (.plain (code 'u'))).map fun ed' =>
        ed.workspace.sessions[0]?.bind fun s => ed'.workspace.sessions[0]?.map fun t =>
          decide (ed.workspace.origin ed'.workspace 0 = 0 ∧
            s.history.isGrouping = false ∧ s.present.sameVersion t.present = true ∧
            s.history.done.length = 2 ∧ s.history.undone.length = 0 ∧
            t.history.done.length = 0 ∧ t.history.undone.length = 2)).toOption =
      some (some true) := by
    decide +kernel
  rcases hed : rewriteKeys.foldlM press (start .empty .blank) with fault | ed
  · rw [hed] at hrun
    cases hrun
  · rcases hed' : ed.press (.plain (code 'u')) with fault | ed'
    · simp only [hed, bind, Except.bind, hed', Except.map, Except.toOption, reduceCtorEq] at hrun
    · simp only [hed, bind, Except.bind, hed', Except.map, Except.toOption, Option.some.injEq]
        at hrun
      rcases Option.bind_eq_some_iff.1 hrun with ⟨s, hs, hmap⟩
      rcases Option.map_eq_some_iff.1 hmap with ⟨t, ht, hstacks⟩
      exact ⟨ed, ed', s, t, rfl, (Reachable.start .empty).pressAll hed, hed', hs, ht,
        of_decide_eq_true hstacks⟩

end Editor

end HexEditor
