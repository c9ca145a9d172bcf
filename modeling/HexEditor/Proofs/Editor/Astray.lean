import HexEditor.Proofs.Editor.Faults
import HexEditor.Proofs.Editor.Modes

/-!
# Files of command lines and closed sessions

Keys are handled only while a session is open, but the lines of a file are run without that
check.  A line may close the last session, and the commands that save the current session,
which do not look whether there is one, then go astray.  No other command does, and they go
astray in no other state.

Main results:

- Definition `Editor.savesCurrent`: the lines that save the current session.
- Theorem `Editor.astray_of_execute`: what one line does.
- Theorem `Editor.runFile_astray_iff`: a file goes astray exactly when such a line comes up
  while no session is open.
- Theorem `Editor.quit_then_write_goes_astray`: there is such a file.
-/

namespace HexEditor

/-- The commands that save the current session. -/
def Command.savesCurrent : Command → Bool
  | .write => true
  | .writeAndClose => true
  | _ => false

namespace Editor

variable {ed ed' : Editor}

/-! ## One line -/

/-- Does the line hold a command that saves the current session? -/
def savesCurrent (line : Text) : Bool :=
  match Command.registry.lookUp line with
  | .call command _ => command.savesCurrent
  | _ => false

theorem astray_closeSession (ed : Editor) (force : Bool) :
    (ed.closeSession force).astray = ed.astray := by
  rw [closeSession]
  split
  · rfl
  · dsimp only
    split <;> rfl

/-- Saving goes astray without a current session. -/
theorem astray_of_writeSession {args : List Text} {report : FileReport}
    (h : ed.writeSession args = .ok (ed', report)) :
    ed'.astray = (ed.astray || ed.workspace.current?.isNone) := by
  rcases exists_of_writeSession h with ⟨v, hwrite, rfl⟩ | ⟨hnone, rfl⟩
  · rcases Option.map_eq_some_iff.1 hwrite with ⟨s, hs, -⟩
    rw [hs]
    exact (Bool.or_false _).symm
  · rw [hnone]
    exact (Bool.or_true _).symm

theorem astray_of_run {command : Command} {args : List Text} (h : ed.run command args = .ok ed') :
    ed'.astray = (ed.astray || (ed.workspace.current?.isNone && command.savesCurrent)) := by
  have hkeeps : command.savesCurrent = false → ed'.astray = ed.astray →
      ed'.astray = (ed.astray || (ed.workspace.current?.isNone && command.savesCurrent)) := by
    intro hother hkept
    rw [hother, Bool.and_false, Bool.or_false, hkept]
  have hsaves : ∀ {written : Editor} {report : FileReport},
      command.savesCurrent = true → ed.writeSession args = .ok (written, report) →
      written.astray = (ed.astray || (ed.workspace.current?.isNone && command.savesCurrent)) := by
    intro written report hsaving hwrite
    rw [hsaving, Bool.and_true, astray_of_writeSession hwrite]
  cases command with
  | write =>
      rcases exists_of_run_write h with ⟨report, hwrite⟩
      exact hsaves rfl hwrite
  | writeAndClose =>
      rcases exists_of_run_writeAndClose h with ⟨written, report, hwrite, rfl | rfl⟩
      · exact hsaves rfl hwrite
      · rw [astray_closeSession]
        exact hsaves rfl hwrite
  | close force =>
      cases h
      exact hkeeps rfl (astray_closeSession ed force)
  | edit =>
      rcases args with _ | ⟨path, others⟩
      · cases h
        exact hkeeps rfl rfl
      · cases h
        exact hkeeps rfl rfl
  | setWidth =>
      rw [run] at h
      split at h
      · cases h
        exact hkeeps rfl rfl
      · cases h
        exact hkeeps rfl rfl
  | setSwitch switch =>
      rw [run] at h
      split at h
      · cases h
        exact hkeeps rfl rfl
      · cases h
        exact hkeeps rfl rfl
  | writeAll | next | previous =>
      cases h
      exact hkeeps rfl rfl

/-- A line goes astray if it saves the current session and there is none. -/
theorem astray_of_execute {line : Text} (h : ed.execute line = .ok ed') :
    ed'.astray = (ed.astray || (ed.workspace.current?.isNone && savesCurrent line)) := by
  rcases hline : Command.registry.lookUp line with _ | name | ⟨command, args⟩
  · simp only [execute, hline] at h
    cases h
    simp only [savesCurrent, hline, Bool.and_false, Bool.or_false]
  · simp only [execute, hline] at h
    cases h
    simp only [savesCurrent, hline, Bool.and_false, Bool.or_false, tell]
  · simp only [execute, hline] at h
    simp only [savesCurrent, hline]
    exact astray_of_run h

/-! ## The lines of a file -/

theorem hasCurrent_of_execute {line : Text} (hediting : ed.mode.isEditing = false)
    (h : ed.workspace.HasCurrent) (ran : ed.execute line = .ok ed') :
    ed'.workspace.HasCurrent := by
  have hfollows : ed.Follows (fun _ => False) ed' := followsTo_execute hediting line ed' ran
  exact h.moves hfollows.turn.moves

theorem exists_foldlM_execute (ed : Editor) (lines : List Text) :
    ∃ ed', lines.foldlM execute ed = .ok ed' := by
  induction lines generalizing ed with
  | nil => exact ⟨ed, rfl⟩
  | cons line lines ih =>
      rcases succeeds_execute ed line with ⟨next, hnext⟩
      rw [List.foldlM_cons, hnext]
      exact ih next

/-- A row of lines goes astray at the first line that saves the current session while none
is open.  The induction takes the lines off one by one. -/
theorem astray_of_foldlM {lines : List Text} (hediting : ed.mode.isEditing = false)
    (hcurrent : ed.workspace.HasCurrent) (ran : lines.foldlM execute ed = .ok ed') :
    ed'.astray = true ↔ ed.astray = true ∨ ∃ before line after reached,
      lines = before ++ line :: after ∧ before.foldlM execute ed = .ok reached ∧
        reached.workspace.sessions = [] ∧ savesCurrent line = true := by
  induction lines generalizing ed with
  | nil =>
      cases ran
      constructor
      · exact .inl
      · rintro (hastray | ⟨before, line, after, reached, hlines, -⟩)
        · exact hastray
        · rcases List.append_eq_nil_iff.1 hlines.symm with ⟨-, hcons⟩
          cases hcons
  | cons line lines ih =>
      rw [List.foldlM_cons] at ran
      rcases hline : ed.execute line with fault | next
      · rw [hline] at ran
        cases ran
      · rw [hline] at ran
        have hnext := ih (by rw [mode_of_execute hline]; exact hediting)
          (hasCurrent_of_execute hediting hcurrent hline) ran
        rw [hnext, astray_of_execute hline, Bool.or_eq_true, Bool.and_eq_true,
          Option.isNone_iff_eq_none, hcurrent.current?_eq_none_iff, or_assoc]
        apply or_congr_right
        constructor
        · rintro (⟨hclosed, hsaves⟩ | ⟨before, later, after, reached, hlines, hran, hlater⟩)
          · exact ⟨[], line, lines, ed, rfl, rfl, hclosed, hsaves⟩
          · refine ⟨line :: before, later, after, reached, by rw [hlines]; rfl, ?_, hlater⟩
            rw [List.foldlM_cons, hline]
            exact hran
        · rintro ⟨before, later, after, reached, hlines, hran, hclosed, hsaves⟩
          cases before with
          | nil =>
              cases hlines
              cases hran
              exact .inl ⟨hclosed, hsaves⟩
          | cons first before =>
              cases hlines
              rw [List.foldlM_cons, hline] at hran
              exact .inr ⟨before, later, after, reached, rfl, hran, hclosed, hsaves⟩

/-- The command lines that a file holds, if it can be read. -/
def commandLines (disk : Disk) (path : Text) : List Text :=
  if disk.hasEntry path then
    match disk.loadLines path with
    | .error _ => []
    | .ok lines => lines.filterMap commandOfLine
  else []

/-- Running a file is running its command lines, except that a file which cannot be read is
told of. -/
theorem runFile_cases (ed : Editor) (path : Text) :
    ed.runFile path = (commandLines ed.disk path).foldlM execute ed ∨
      commandLines ed.disk path = [] ∧ ∃ notice, ed.runFile path = .ok (ed.tell notice) := by
  rw [runFile, commandLines]
  split_ifs
  · rcases ed.disk.loadLines path with error | lines
    · exact .inr ⟨rfl, _, rfl⟩
    · exact .inl rfl
  · exact .inl rfl

theorem hasCurrent_start {w : Workspace} (h : w.HasCurrent) (disk : Disk) :
    (start w disk).workspace.HasCurrent := by
  rw [start]
  dsimp only
  split_ifs
  · exact Workspace.hasCurrent_add w _
  · exact h

/-- An editor that has just begun, on whatever sessions, gets to the end of every file of
command lines.  A command asks for the current session while none is open exactly if, for
some line that saves the current session, the lines before it leave no session open. -/
theorem runFile_astray_iff {w : Workspace} (hcurrent : w.HasCurrent) (disk : Disk)
    (path : Text) :
    ∃ ed, (start w disk).runFile path = .ok ed ∧
      (ed.astray = true ↔ ∃ before line after reached,
        commandLines disk path = before ++ line :: after ∧
          before.foldlM execute (start w disk) = .ok reached ∧
          reached.workspace.sessions = [] ∧ savesCurrent line = true) := by
  have hstart := hasCurrent_start hcurrent disk
  rcases runFile_cases (start w disk) path with hrun | ⟨hlines, notice, hrun⟩
  · rcases exists_foldlM_execute (start w disk) (commandLines disk path) with ⟨ed, hed⟩
    refine ⟨ed, hrun.trans hed, (astray_of_foldlM rfl hstart hed).trans ?_⟩
    exact or_iff_right Bool.false_ne_true
  · refine ⟨_, hrun, iff_of_false Bool.false_ne_true ?_⟩
    rintro ⟨before, line, after, reached, hsplit, -⟩
    rcases List.append_eq_nil_iff.1 (hsplit.symm.trans hlines) with ⟨-, hcons⟩
    cases hcons

/-- Blank lines, remarks and settings between the line that closes the only session and the
line that saves change nothing. -/
theorem runFile_astray_iff_remarks :
    ∃ ed, (start .empty (Disk.blank.put (ascii "rc")
        (ascii ":q\n\n# done\nset width 8\nwq out\n"))).runFile (ascii "rc") = .ok ed ∧
      ed.astray = true := by
  rcases runFile_astray_iff Workspace.hasCurrent_empty (Disk.blank.put (ascii "rc")
      (ascii ":q\n\n# done\nset width 8\nwq out\n")) (ascii "rc") with ⟨ed, hrun, hastray⟩
  refine ⟨ed, hrun, hastray.2 ?_⟩
  exact ⟨[ascii "q", ascii "set width 8"], ascii "wq out", [], _, by rfl, rfl, rfl, by rfl⟩

/-- Closing the only session and saving goes astray. -/
theorem quit_then_write_goes_astray :
    ((start .empty (Disk.blank.put (ascii "rc") (ascii "q\nw"))).runFile (ascii "rc")).map
      (·.astray) = .ok true := by
  rfl

end Editor

end HexEditor
