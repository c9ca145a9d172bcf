import HexEditor.Proofs.Editor.Turns
import HexEditor.Proofs.Session.Saving

/-!
# What a key tells

A command can fail for many reasons: a pattern is malformed or does not occur, the last
selection cannot be dropped, there is nothing to paste or to undo, a file cannot be read or
written.  The failure is told, and then nothing has happened to the open sessions and to the
registers.

A notice stays until the next one.  So every handler is looked at with the notice that is shown
before as a parameter: it passes this notice on, or it tells something of its own.

Main results:

- Definition `Editor.Keeps`: the open sessions and the registers are as before.
- Definition `Editor.TellsCleanly` and theorem `Editor.tellsCleanly_press`: a key passes the
  notice on, or tells something of its own, and a failure only if it keeps everything.
-/

namespace HexEditor

/-! ## Files -/

namespace Workspace

variable {w : Workspace}

/-- A path that cannot be loaded is not opened. -/
theorem openPath_failure {disk : Disk} {path : Text}
    (hreport : (w.openPath disk path).2.isFailure = true) : (w.openPath disk path).1 = w := by
  revert hreport
  rw [openPath]
  split
  · intro hfailed
    cases hfailed
  · split_ifs
    · split
      · exact fun _ => rfl
      · intro hfailed
        cases hfailed
    · intro hfailed
      cases hfailed

end Workspace

namespace Editor

/-! ## What a failure keeps -/

/-- The open sessions, the current one among them, and the registers are the same. -/
structure Keeps (ed ed' : Editor) : Prop where
  workspace : ed'.workspace = ed.workspace
  registers : ed'.registers = ed.registers

/-- A result that tells a failure keeps the sessions and the registers. -/
def FailsCleanly (ed : Editor) (result : Except Fault Editor) : Prop :=
  ∀ ed', result = .ok ed' → ed'.notice.isFailure = true → ed.Keeps ed'

/-- A handler, which is given the notice that is shown before, passes the notice on, or it
tells something of its own and fails cleanly. -/
def TellsCleanly (ed : Editor) (handler : Notice → Except Fault Editor) : Prop :=
  (∀ notice, handler notice = (handler .blank).map (·.tell notice)) ∨
    (∀ notice, handler notice = handler .blank) ∧ ed.FailsCleanly (handler .blank)

section Composition

variable {ed base : Editor} {result result' : Except Fault Editor}
  {handler handler' : Notice → Except Fault Editor}

theorem Keeps.refl (ed : Editor) : ed.Keeps ed :=
  ⟨rfl, rfl⟩

theorem Keeps.trans {ed' ed'' : Editor} (h : ed.Keeps ed') (h' : ed'.Keeps ed'') :
    ed.Keeps ed'' :=
  ⟨h'.workspace.trans h.workspace, h'.registers.trans h.registers⟩

theorem FailsCleanly.keeps {ed' : Editor} (h : ed.Keeps ed') : ed.FailsCleanly (.ok ed') := by
  rintro _ ⟨⟩ _
  exact h

/-- A result without a failure. -/
theorem FailsCleanly.of_notice {ed' : Editor} (h : ed'.notice.isFailure = false) :
    ed.FailsCleanly (.ok ed') := by
  rintro _ ⟨⟩ hfailure
  rw [h] at hfailure
  cases hfailure

theorem FailsCleanly.error (fault : Fault) : ed.FailsCleanly (.error fault) := by
  rintro _ ⟨⟩

theorem FailsCleanly.ite {c : Prop} [Decidable c] (h : ed.FailsCleanly result)
    (h' : ed.FailsCleanly result') : ed.FailsCleanly (if c then result else result') := by
  split_ifs
  · exact h
  · exact h'

theorem Keeps.trans_failsCleanly (h : ed.Keeps base) (h' : base.FailsCleanly result) :
    ed.FailsCleanly result :=
  fun ed' hok hfailure => h.trans (h' ed' hok hfailure)

theorem TellsCleanly.silent (h : ∀ notice, handler notice = (handler .blank).map (·.tell notice)) :
    ed.TellsCleanly handler :=
  .inl h

theorem TellsCleanly.tells (h : ∀ notice, handler notice = handler .blank)
    (h' : ed.FailsCleanly (handler .blank)) : ed.TellsCleanly handler :=
  .inr ⟨h, h'⟩

theorem TellsCleanly.ite {c : Prop} [Decidable c] (h : ed.TellsCleanly handler)
    (h' : ed.TellsCleanly handler') :
    ed.TellsCleanly fun notice => if c then handler notice else handler' notice := by
  split_ifs
  · exact h
  · exact h'

theorem Keeps.trans_tellsCleanly (h : ed.Keeps base) (h' : base.TellsCleanly handler) :
    ed.TellsCleanly handler :=
  h'.imp_right fun ⟨hconst, hclean⟩ => ⟨hconst, h.trans_failsCleanly hclean⟩

end Composition

variable {ed : Editor} {s : Session}

theorem keeps_tell (ed : Editor) (notice : Notice) : ed.Keeps (ed.tell notice) :=
  ⟨rfl, rfl⟩

theorem keeps_enter (ed : Editor) (mode : Mode) : ed.Keeps (ed.enter mode) :=
  ⟨rfl, rfl⟩

/-! ## Commands -/

/-- An edit passes the notice on. -/
theorem edit_tell (ed : Editor) (s : Session) (edited : Except RangeError Edited)
    (notice : Notice) :
    (ed.tell notice).edit s edited = ((ed.tell .blank).edit s edited).map (·.tell notice) := by
  cases edited
  · rfl
  · rfl

theorem notice_of_edit {edited : Except RangeError Edited} {ed' : Editor}
    (h : ed.edit s edited = .ok ed') : ed'.notice = ed.notice := by
  cases edited
  · cases h
  · cases h
    rfl

theorem notice_of_cut {ed' : Editor} (h : ed.cut s = .ok ed') : ed'.notice = ed.notice := by
  rw [cut] at h
  rcases hcopy : ed.copy s with fault | copied
  · rw [hcopy] at h
    cases h
  · rcases exists_registers_of_copy hcopy with ⟨registers, rfl⟩
    rw [hcopy] at h
    have hedit : { ed with registers }.edit s (s.buffer.delete s.selections) = .ok ed' := h
    have hsame := notice_of_edit hedit
    exact hsame

section Blank

variable (hblank : ed.notice = .blank)

include hblank

theorem failsCleanly_of_same {ed' : Editor} (h : ed'.notice = ed.notice) :
    ed.FailsCleanly (.ok ed') := by
  apply FailsCleanly.of_notice
  rw [h, hblank]
  rfl

theorem failsCleanly_edit (s : Session) (edited : Except RangeError Edited) :
    ed.FailsCleanly (ed.edit s edited) := by
  cases edited
  · exact .error _
  · exact failsCleanly_of_same hblank rfl

theorem failsCleanly_cut {base : Editor} (hsame : base.notice = ed.notice) (s : Session) :
    ed.FailsCleanly (base.cut s) := by
  rcases hcut : base.cut s with fault | ed'
  · exact .error fault
  · exact failsCleanly_of_same hblank ((notice_of_cut hcut).trans hsame)

theorem failsCleanly_paste (s : Session) (side : Side) (count : Nat) :
    ed.FailsCleanly (ed.paste s side count) := by
  simp only [paste]
  refine .ite (.keeps (keeps_tell ed _)) (.ite (.keeps (keeps_tell ed _)) ?_)
  exact failsCleanly_edit hblank s _

theorem failsCleanly_backOrForth (s : Option Session) (otherwise : Notice) :
    ed.FailsCleanly (.ok (ed.backOrForth s otherwise)) := by
  cases s
  · exact .keeps (keeps_tell ed _)
  · exact failsCleanly_of_same hblank rfl

theorem failsCleanly_selectOrTell (selections : Except SelectionError SelectionSet) :
    ed.FailsCleanly (.ok (ed.selectOrTell selections)) := by
  cases selections
  · exact .keeps (keeps_tell ed _)
  · exact failsCleanly_of_same hblank rfl

/-- A command that is given to an editor without a notice. -/
theorem failsCleanly_command (s : Session) (c : Int) (count : Nat) (typed : Bool) :
    ed.FailsCleanly (ed.command s c count typed) := by
  have hcopy : ed.FailsCleanly (ed.copy s >>= fun copied =>
      return copied.tell (.yanked s.selections.size)) := by
    rcases ed.copy s with fault | copied
    · exact .error fault
    · exact .of_notice rfl
  have hcut : ed.FailsCleanly (ed.cut s) := failsCleanly_cut hblank rfl s
  have hchange : ∀ encoding,
      ed.FailsCleanly ((ed.beginInsert encoding .before).cut s.beginGroup) :=
    fun _ => failsCleanly_cut hblank (by rfl) s.beginGroup
  have hjump : ∀ extend, ed.FailsCleanly (.ok (if typed then
      ed.select (s.selections.jumpTo count extend s.buffer.length)
      else ed.enter (.jump extend))) := by
    intro extend
    split_ifs
    · exact failsCleanly_of_same hblank rfl
    · exact failsCleanly_of_same hblank rfl
  simp only [command]
  repeat' first
    | exact hjump _
    | exact failsCleanly_of_same hblank rfl
    | exact hcopy
    | exact hcut
    | exact hchange _
    | exact failsCleanly_paste hblank s _ count
    | exact failsCleanly_backOrForth hblank _ _
    | exact .of_notice rfl
    | apply FailsCleanly.ite

end Blank

theorem notice_of_move? {ed' : Editor} {key : Key} {count : Nat} {letters : Bool}
    (h : ed.move? s key count letters = some ed') : ed'.notice = ed.notice := by
  rcases Option.map_eq_some_iff.1 h with ⟨⟨unit, extend⟩, -, rfl⟩
  rfl

/-- A key where commands are read: one that belongs to a count passes the notice on, and
every other one clears it first. -/
theorem tellsCleanly_pressNormal (ed : Editor) (s : Session) (key : Key) :
    ed.TellsCleanly fun notice => (ed.tell notice).pressNormal s key := by
  simp only [pressNormal, tell]
  refine .ite (.silent fun _ => rfl) ?_
  rcases countKey? ed.count key with _ | count
  · refine .ite (.silent fun _ => rfl) (.tells (fun _ => rfl) ?_)
    have hcleared : ed.Keeps { ed with count := .empty, notice := .blank } := ⟨rfl, rfl⟩
    have hblank : { ed with count := .empty, notice := .blank }.notice = .blank := rfl
    revert hcleared hblank
    generalize { ed with count := .empty, notice := .blank } = cleared
    intro hcleared hblank
    apply hcleared.trans_failsCleanly
    split
    · rename_i moved hmove
      exact failsCleanly_of_same hblank (notice_of_move? hmove)
    · refine .ite (failsCleanly_of_same hblank rfl)
        (.ite (failsCleanly_selectOrTell hblank _) ?_)
      rcases key.plain? with _ | c
      · exact failsCleanly_of_same hblank rfl
      · exact failsCleanly_command hblank s c _ _
  · exact .silent fun _ => rfl

/-- The target of a jump is never refused. -/
theorem tellsCleanly_pressJump (ed : Editor) (s : Session) (extend : Bool) (key : Key) :
    ed.TellsCleanly fun notice => .ok ((ed.tell notice).pressJump s extend key) := by
  apply TellsCleanly.silent
  intro notice
  simp only [pressJump]
  rcases key.plain? with _ | c
  · rfl
  · dsimp only
    split_ifs <;> rfl

theorem tellsCleanly_selectOrTell (ed : Editor)
    (selections : Except SelectionError SelectionSet) :
    ed.TellsCleanly fun notice => .ok ((ed.tell notice).selectOrTell selections) := by
  cases selections
  · exact .tells (fun _ => rfl) (.keeps (keeps_tell ed _))
  · exact .silent fun _ => rfl

/-- A key that says how to split. -/
theorem tellsCleanly_pressSplit (ed : Editor) (s : Session) (key : Key) :
    ed.TellsCleanly fun notice => .ok ((ed.tell notice).pressSplit s key) := by
  simp only [pressSplit, tell]
  split_ifs
  · exact .silent fun _ => rfl
  · rcases countKey? ed.count key with _ | count
    · dsimp only
      rcases key.plain? with _ | c
      · exact .silent fun _ => rfl
      · dsimp only
        rcases pieceWidth? c with _ | width
        · dsimp only
          split_ifs
          · have hnormal : ed.Keeps ({ ed with count := .empty }.enter .normal) := ⟨rfl, rfl⟩
            exact hnormal.trans_tellsCleanly (tellsCleanly_selectOrTell _ _)
          · exact .silent fun _ => rfl
          · exact .silent fun _ => rfl
          · exact .silent fun _ => rfl
        · exact .silent fun _ => rfl
    · exact .silent fun _ => rfl

/-! ## Inserting and replacing -/

theorem tellsCleanly_edit (ed : Editor) (s : Session) (edited : Except RangeError Edited) :
    ed.TellsCleanly fun notice => (ed.tell notice).edit s edited :=
  .silent (edit_tell ed s edited)

theorem tellsCleanly_move?_getD (ed : Editor) (s : Session) (key : Key) :
    ed.TellsCleanly fun notice =>
      .ok (((ed.tell notice).move? s key 1 false).getD (ed.tell notice)) := by
  apply TellsCleanly.silent
  intro notice
  simp only [move?, tell]
  rcases movement? ed.view.width false key with _ | ⟨unit, extend⟩
  · rfl
  · rfl

/-- While bytes are inserted only a key that is no digit tells anything. -/
theorem tellsCleanly_pressInsert (ed : Editor) (s : Session) (encoding : Encoding) (side : Side)
    (half : Option UInt8) (key : Key) :
    ed.TellsCleanly fun notice => (ed.tell notice).pressInsert s encoding side half key := by
  have hbyte : ∀ byte, ed.TellsCleanly fun notice => (ed.tell notice).insertByte s side byte :=
    fun byte => tellsCleanly_edit ed s _
  have hback : ed.Keeps (ed.enter (.insert encoding side none)) := keeps_enter ed _
  have hcomplete : ∀ byte, ed.TellsCleanly fun notice =>
      ((ed.tell notice).enter (.insert encoding side none)).insertByte s side byte :=
    fun byte => hback.trans_tellsCleanly (tellsCleanly_edit _ s _)
  have hmove : ed.TellsCleanly fun notice =>
      .ok ((((ed.tell notice).enter (.insert encoding side none)).move? s key 1 false).getD
        ((ed.tell notice).enter (.insert encoding side none))) :=
    hback.trans_tellsCleanly (tellsCleanly_move?_getD _ s key)
  cases key with
  | backspace => exact .ite (.silent fun _ => rfl) (tellsCleanly_edit ed s _)
  | delete => exact tellsCleanly_edit ed s _
  | enter => exact .ite (hbyte 10) (.silent fun _ => rfl)
  | tab => exact .ite (hbyte 9) (.silent fun _ => rfl)
  | char c ctrl alt =>
      simp only [pressInsert]
      refine .ite (.silent fun _ => rfl) (.ite (hcomplete 0) (.ite (.silent fun _ => rfl)
        (.ite (hbyte _) ?_)))
      rcases hexDigitOfCode? c with _ | digit
      · exact .tells (fun _ => rfl) (.keeps (keeps_tell ed _))
      · rcases half with _ | half
        · exact .silent fun _ => rfl
        · exact hcomplete _
  | escape => exact .silent fun _ => rfl
  | unknown => exact .silent fun _ => rfl
  | left => exact hmove
  | right => exact hmove
  | up => exact hmove
  | down => exact hmove

/-- While bytes are replaced nothing is told. -/
theorem tellsCleanly_pressReplace (ed : Editor) (s : Session) (encoding : Encoding)
    (half : Option UInt8) (key : Key) :
    ed.TellsCleanly fun notice => (ed.tell notice).pressReplace s encoding half key := by
  have hoverwrite : ∀ byte, ed.TellsCleanly fun notice => (ed.tell notice).overwriteWith s byte :=
    fun byte => tellsCleanly_edit ed s _
  have hback : ed.Keeps (ed.enter (.replace encoding none)) := keeps_enter ed _
  have hcomplete : ∀ byte, ed.TellsCleanly fun notice =>
      ((ed.tell notice).enter (.replace encoding none)).overwriteWith s byte :=
    fun byte => hback.trans_tellsCleanly (tellsCleanly_edit _ s _)
  have hfinish : ed.TellsCleanly fun notice =>
      ((ed.tell notice).overwriteWith s 0).map endEditing := by
    apply TellsCleanly.silent
    intro notice
    rw [overwriteWith, overwriteWith]
    rcases s.buffer.overwrite s.selections 0 with error | e
    · rfl
    · rfl
  have hmove : ed.TellsCleanly fun notice => .ok (if half.isSome then ed.tell notice
      else ((ed.tell notice).move? s key 1 false).getD (ed.tell notice)) := by
    split_ifs
    · exact .silent fun _ => rfl
    · exact tellsCleanly_move?_getD ed s key
  cases key with
  | char c ctrl alt =>
      simp only [pressReplace]
      refine .ite hfinish (.ite (.silent fun _ => rfl) (.ite (.silent fun _ => rfl)
        (.ite (hoverwrite _) ?_)))
      rcases hexDigitOfCode? c with _ | digit
      · exact .silent fun _ => rfl
      · rcases half with _ | half
        · exact .silent fun _ => rfl
        · exact hcomplete _
  | left => exact hmove
  | right => exact hmove
  | up => exact hmove
  | down => exact hmove
  | escape => exact .silent fun _ => rfl
  | backspace => exact .silent fun _ => rfl
  | delete => exact .silent fun _ => rfl
  | enter => exact .silent fun _ => rfl
  | tab => exact .silent fun _ => rfl
  | unknown => exact .silent fun _ => rfl

/-! ## Prompts -/

/-- A pattern that is used: how many matches are selected is told, or why none are. -/
theorem tellsCleanly_runPattern (ed : Editor) (s : Session) (purpose : Purpose)
    (pattern : Pattern) :
    ed.TellsCleanly fun notice => .ok ((ed.tell notice).runPattern s purpose pattern) := by
  simp only [runPattern]
  split
  · exact .tells (fun _ => rfl) (.keeps (keeps_tell ed _))
  · exact .tells (fun _ => rfl) (.of_notice rfl)

theorem tellsCleanly_pressPattern (ed : Editor) (s : Session) (encoding : Encoding)
    (purpose : Purpose) (prompt : Prompt) (key : Key) :
    ed.TellsCleanly fun notice =>
      .ok ((ed.tell notice).pressPattern s encoding purpose prompt key) := by
  have hrefused : ∀ error, ed.TellsCleanly fun notice =>
      .ok ((ed.tell notice).tell (.badPattern error)) :=
    fun error => .tells (fun _ => rfl) (.keeps (keeps_tell ed _))
  simp only [pressPattern]
  split_ifs
  · exact .silent fun _ => rfl
  · rcases Pattern.parse encoding prompt.text with error | pattern
    · exact hrefused error
    · dsimp only
      split_ifs
      · exact .silent fun _ => rfl
      · exact (keeps_enter ed .normal).trans_tellsCleanly (tellsCleanly_runPattern _ s _ _)
  · exact .silent fun _ => rfl
  · exact .silent fun _ => rfl
  · rcases Pattern.parse encoding prompt.text with error | pattern
    · exact hrefused error
    · exact .silent fun _ => rfl
  · rcases prompt.edit? key with _ | edited
    · exact .silent fun _ => rfl
    · exact .silent fun _ => rfl

/-! ## Command lines -/

theorem tellsCleanly_closeSession (ed : Editor) (force : Bool) :
    ed.TellsCleanly fun notice => .ok ((ed.tell notice).closeSession force) := by
  simp only [closeSession, tell]
  rcases ed.workspace.close? force with error | w
  · exact .tells (fun _ => rfl) (.keeps ⟨rfl, rfl⟩)
  · dsimp only
    rcases w.current? with _ | s
    · exact .silent fun _ => rfl
    · exact .tells (fun _ => rfl) (.of_notice rfl)

/-- Closing is not refused when it is forced. -/
theorem isFailure_notice_closeSession_true (h : ed.notice.isFailure = false) :
    (ed.closeSession true).notice.isFailure = false := by
  have hclosed : ∃ w, ed.workspace.close? true = .ok w := by
    rw [Workspace.close?]
    split
    · exact ⟨_, rfl⟩
    · exact ⟨_, rfl⟩
  rcases hclosed with ⟨w, hw⟩
  rw [closeSession, hw]
  dsimp only
  split
  · exact h
  · rfl

/-- Saving tells its report, and a refusal keeps the sessions. -/
theorem keeps_of_writeSession {args : List Text} {ed' : Editor} {report : FileReport}
    (h : ed.writeSession args = .ok (ed', report)) :
    ed'.notice = .file report ∧ (report.isFailure = true → ed.Keeps ed') := by
  rw [writeSession] at h
  split at h
  · cases h
    exact ⟨rfl, fun _ => ⟨rfl, rfl⟩⟩
  · rename_i hwrite
    cases h
    exact ⟨rfl, fun hreport => ⟨Workspace.eq_of_write?_failure hwrite hreport, rfl⟩⟩

theorem failsCleanly_run_write (ed : Editor) (args : List Text) :
    ed.FailsCleanly (ed.run .write args) := by
  rw [run]
  rcases hwrite : ed.writeSession args with fault | ⟨written, report⟩
  · exact .error fault
  · rcases keeps_of_writeSession hwrite with ⟨hnotice, hkeeps⟩
    rintro _ ⟨⟩ hfailure
    apply hkeeps
    rw [hnotice] at hfailure
    exact hfailure

theorem failsCleanly_run_writeAndClose (ed : Editor) (args : List Text) :
    ed.FailsCleanly (ed.run .writeAndClose args) := by
  rw [run]
  rcases hwrite : ed.writeSession args with fault | ⟨written, report⟩
  · exact .error fault
  · rcases keeps_of_writeSession hwrite with ⟨hnotice, hkeeps⟩
    by_cases hreport : report.isFailure = true
    · rintro _ ⟨⟩ _
      rw [if_pos hreport]
      exact hkeeps hreport
    · rintro _ ⟨⟩ hfailure
      rw [if_neg hreport] at hfailure
      rw [Bool.not_eq_true] at hreport
      rw [isFailure_notice_closeSession_true (by rw [hnotice]; exact hreport)] at hfailure
      cases hfailure

/-- A command, unless it is the one that saves all sessions. -/
theorem tellsCleanly_run (ed : Editor) {command : Command} (hcommand : command ≠ .writeAll)
    (args : List Text) :
    ed.TellsCleanly fun notice => (ed.tell notice).run command args := by
  have hblank : ed.Keeps (ed.tell .blank) := keeps_tell ed .blank
  cases command with
  | close force => exact tellsCleanly_closeSession ed force
  | write =>
      exact .tells (fun _ => rfl) (hblank.trans_failsCleanly (failsCleanly_run_write _ args))
  | writeAll => exact absurd rfl hcommand
  | writeAndClose =>
      refine .tells ?_ (hblank.trans_failsCleanly (failsCleanly_run_writeAndClose _ args))
      intro notice
      rfl
  | edit =>
      rcases args with _ | ⟨path, others⟩
      · exact .tells (fun _ => rfl) (.keeps ⟨rfl, rfl⟩)
      · refine .tells (fun _ => rfl) ?_
        rintro _ ⟨⟩ hfailure
        exact ⟨Workspace.openPath_failure hfailure, rfl⟩
  | next => exact .silent fun _ => rfl
  | previous => exact .silent fun _ => rfl
  | setWidth =>
      simp only [run]
      split
      · exact .tells (fun _ => rfl) (.keeps ⟨rfl, rfl⟩)
      · exact .tells (fun _ => rfl) (.of_notice rfl)
  | setSwitch switch =>
      simp only [run, tell]
      split
      · exact .tells (fun _ => rfl) (.keeps ⟨rfl, rfl⟩)
      · exact .tells (fun _ => rfl) (.of_notice rfl)

/-- The command that a key runs, when the line it ends names one. -/
def lineCommand? (ed : Editor) (key : Key) : Option Command :=
  match ed.mode, key with
  | .command prompt, .enter =>
    match Command.registry.lookUp prompt.text with
    | .call command _ => some command
    | _ => none
  | _, _ => none

theorem exists_of_lineCommand? {key : Key} {command : Command}
    (h : ed.lineCommand? key = some command) :
    ∃ prompt args, ed.mode = .command prompt ∧ key = .enter ∧
      Command.registry.lookUp prompt.text = .call command args := by
  simp only [lineCommand?] at h
  split at h
  · rename_i prompt hmode
    split at h
    · rename_i args hline
      cases h
      exact ⟨prompt, args, hmode, rfl, hline⟩
    · cases h
  · cases h

theorem tellsCleanly_pressCommand (ed : Editor) {prompt : Prompt} {key : Key}
    (hmode : ed.mode = .command prompt) (hcommand : ed.lineCommand? key ≠ some .writeAll) :
    ed.TellsCleanly fun notice => (ed.tell notice).pressCommand prompt key := by
  have hexecute : key = .enter → ed.TellsCleanly fun notice =>
      ((ed.tell notice).enter .normal).execute prompt.text := by
    rintro rfl
    simp only [lineCommand?, hmode] at hcommand
    simp only [execute]
    rcases hline : Command.registry.lookUp prompt.text with _ | name | ⟨command, args⟩
    · exact .silent fun _ => rfl
    · exact .tells (fun _ => rfl) (.keeps ⟨rfl, rfl⟩)
    · rw [hline] at hcommand
      have hother : command ≠ .writeAll := fun heq => hcommand (congrArg some heq)
      exact (keeps_enter ed .normal).trans_tellsCleanly (tellsCleanly_run _ hother args)
  simp only [pressCommand]
  split_ifs with _ henter
  · exact .silent fun _ => rfl
  · exact hexecute henter
  · exact .silent fun _ => rfl
  · rcases prompt.edit? key with _ | edited
    · exact .silent fun _ => rfl
    · exact .silent fun _ => rfl

/-! ## All modes -/

/-- What the mode decides, with the notice that is shown before. -/
theorem press_tell_eq (hquit : ed.quit = false) (hs : ed.workspace.current? = some s)
    (key : Key) (notice : Notice) :
    (ed.tell notice).press key =
      match ed.mode with
      | .normal => (ed.tell notice).pressNormal s key
      | .jump extend => .ok ((ed.tell notice).pressJump s extend key)
      | .split => .ok ((ed.tell notice).pressSplit s key)
      | .insert encoding side half => (ed.tell notice).pressInsert s encoding side half key
      | .replace encoding half => (ed.tell notice).pressReplace s encoding half key
      | .pattern encoding purpose prompt =>
        .ok ((ed.tell notice).pressPattern s encoding purpose prompt key)
      | .command prompt => (ed.tell notice).pressCommand prompt key := by
  have hgoes : (ed.tell notice).quit = false := hquit
  have hcurrent : (ed.tell notice).workspace.current? = some s := hs
  rw [press, hgoes, if_neg Bool.false_ne_true, hcurrent]
  rfl

/-- A key passes the notice on, or it tells something of its own; and then, unless it is to save
all sessions, it tells a failure only if it keeps the sessions and the registers. -/
theorem tellsCleanly_press (ed : Editor) {key : Key}
    (hcommand : ed.lineCommand? key ≠ some .writeAll) :
    ed.TellsCleanly fun notice => (ed.tell notice).press key := by
  rcases hquit : ed.quit with _ | _
  · rcases hs : ed.workspace.current? with _ | s
    · simp only [press, tell, hquit, Bool.false_eq_true, if_false, hs]
      exact .silent fun _ => rfl
    · simp only [press_tell_eq hquit hs]
      cases hmode : ed.mode with
      | normal => exact tellsCleanly_pressNormal ed s key
      | jump extend => exact tellsCleanly_pressJump ed s extend key
      | split => exact tellsCleanly_pressSplit ed s key
      | insert encoding side half => exact tellsCleanly_pressInsert ed s encoding side half key
      | replace encoding half => exact tellsCleanly_pressReplace ed s encoding half key
      | pattern encoding purpose prompt =>
          exact tellsCleanly_pressPattern ed s encoding purpose prompt key
      | command prompt => exact tellsCleanly_pressCommand ed hmode hcommand
  · simp only [press, tell, hquit, if_true]
    exact .silent fun _ => rfl

end Editor

end HexEditor
