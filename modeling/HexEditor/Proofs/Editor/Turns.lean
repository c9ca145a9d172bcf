import HexEditor.Editor.Press
import HexEditor.Proofs.Disk.Directory
import HexEditor.Proofs.Editor.Tidy
import HexEditor.Proofs.Session.Turn

/-!
# What a key does to the editor

Every key handler takes the open sessions through one turn, leaves the working directory of
the disk, and keeps all else in order.  This is said once here, handler by handler; whatever
every turn keeps then holds after every key.

Handlers that can end in a fault are described by what holds when they do not.  The
theorems on `FollowsTo` follow the shape of the handlers, branch by branch.

Main results:

- Definitions `Editor.Follows` and `Editor.FollowsTo`: one state comes from another by a
  turn, and so does the result of a handler.
- Theorem `Editor.followsTo_execute`: command lines.
- Theorem `Editor.followsTo_press`: keys, in every mode.
-/

namespace HexEditor

theorem Key.eq_plain_of_plain? {key : Key} {c : Int} (h : key.plain? = some c) :
    key = .plain c := by
  simp only [plain?] at h
  split at h
  · cases h
    rfl
  · cases h

namespace Editor

/-! ## States that follow one another -/

/-- The second state comes from the first by one key or one command line that may make the given
trips. -/
structure Follows (ed : Editor) (trips : Trip → Prop) (ed' : Editor) : Prop where
  /-- The sessions take a turn, and the modes say whether bytes are typed around it. -/
  turn : Workspace.Turn ed.disk.directory trips ed.workspace ed.mode.isEditing
    ed'.workspace ed'.mode.isEditing
  /-- What else is kept stays in order. -/
  tidy : ed.Tidy → ed'.Tidy
  directory : ed'.disk.directory = ed.disk.directory
  /-- Typing bytes does not change the count. -/
  count : ed.mode.isEditing = true → ed'.count = ed.count
  /-- The editor ends with its last session. -/
  quit : ed'.quit = ed.quit ∨ ed'.workspace.current? = none

/-- If the handling of a key or a command does not end in a fault, the state follows the
given one. -/
def FollowsTo (ed : Editor) (trips : Trip → Prop) (result : Except Fault Editor) : Prop :=
  ∀ ed', result = .ok ed' → ed.Follows trips ed'

/-- The states differ in nothing that a turn is about. -/
structure Rests (ed ed' : Editor) : Prop where
  workspace : ed'.workspace = ed.workspace
  disk : ed'.disk = ed.disk
  editing : ed'.mode.isEditing = ed.mode.isEditing
  count : ed.mode.isEditing = true → ed'.count = ed.count
  quit : ed'.quit = ed.quit
  tidy : ed.Tidy → ed'.Tidy

section Composition

variable {ed ed' ed'' : Editor} {trips : Trip → Prop} {result result' : Except Fault Editor}

/-- While a session is open the editor has not ended. -/
theorem Follows.quit_eq (h : ed.Follows trips ed') {t : Session}
    (ht : ed'.workspace.current? = some t) : ed'.quit = ed.quit := by
  rcases h.quit with hquit | hnone
  · exact hquit
  · rw [ht] at hnone
    cases hnone

theorem Rests.follows (h : ed.Rests ed') : ed.Follows trips ed' := by
  rcases h with ⟨hworkspace, hdisk, hediting, hcount, hquit, htidy⟩
  refine ⟨?_, htidy, by rw [hdisk], hcount, .inl hquit⟩
  rw [hworkspace, hediting]
  exact .rest _

theorem Rests.trans_follows (h : ed.Rests ed') (h' : ed'.Follows trips ed'') :
    ed.Follows trips ed'' := by
  rcases h with ⟨hworkspace, hdisk, hediting, hcount, hquit, htidy⟩
  refine ⟨?_, fun h => h'.tidy (htidy h), ?_, ?_, ?_⟩
  · rw [← hworkspace, ← hdisk, ← hediting]
    exact h'.turn
  · rw [← hdisk]
    exact h'.directory
  · intro h
    rw [← hcount h]
    rw [← hediting] at h
    exact h'.count h
  · rw [← hquit]
    exact h'.quit

theorem Follows.refl (ed : Editor) : ed.Follows trips ed :=
  ⟨.rest _, id, rfl, fun _ => rfl, .inl rfl⟩

theorem Follows.ite {c : Prop} [Decidable c] (h : ed.Follows trips ed')
    (h' : ed.Follows trips ed'') : ed.Follows trips (if c then ed' else ed'') := by
  split_ifs
  · exact h
  · exact h'

theorem FollowsTo.ok (h : ed.Follows trips ed') : ed.FollowsTo trips (.ok ed') := by
  intro next hnext
  cases hnext
  exact h

theorem FollowsTo.error (fault : Fault) : ed.FollowsTo trips (.error fault) := by
  intro next hnext
  cases hnext

theorem FollowsTo.ite {c : Prop} [Decidable c] (h : ed.FollowsTo trips result)
    (h' : ed.FollowsTo trips result') : ed.FollowsTo trips (if c then result else result') := by
  split_ifs
  · exact h
  · exact h'

theorem Rests.trans_followsTo (h : ed.Rests ed') (h' : ed'.FollowsTo trips result) :
    ed.FollowsTo trips result :=
  fun next hnext => h.trans_follows (h' next hnext)

end Composition

variable {ed ed' : Editor} {trips : Trip → Prop} {s : Session}

/-- A turn that keeps the mode may change the view no more than a tidy one allows. -/
theorem Follows.of_turn (hturn : Workspace.Turn ed.disk.directory trips ed.workspace
      ed.mode.isEditing ed'.workspace ed.mode.isEditing)
    (hmode : ed'.mode = ed.mode) (hcount : ed'.count = ed.count) (hview : ed'.view = ed.view)
    (hdirectory : ed'.disk.directory = ed.disk.directory) (hquit : ed'.quit = ed.quit) :
    ed.Follows trips ed' := by
  refine ⟨?_, fun h => h.of_same hmode hcount hview, hdirectory, fun _ => hcount, .inl hquit⟩
  rw [hmode]
  exact hturn

theorem rests_tell (ed : Editor) (notice : Notice) : ed.Rests (ed.tell notice) :=
  ⟨rfl, rfl, rfl, fun _ => rfl, rfl, fun h => h.of_same rfl rfl rfl⟩

/-- A mode in which no count can be typed is entered without one. -/
theorem rests_enter {mode : Mode} (hcount : ed.mode.counts = false ∨ ed.count = .empty)
    (hediting : mode.isEditing = ed.mode.isEditing) (hvalid : mode.Valid) :
    ed.Rests (ed.enter mode) := by
  refine ⟨rfl, rfl, hediting, fun _ => rfl, rfl, fun h => h.of_count hvalid ?_ rfl⟩
  rcases hcount with hcounts | hcount
  · exact h.count_eq_empty hcounts
  · exact hcount

theorem current?_enter (hs : ed.workspace.current? = some s) (mode : Mode) :
    (ed.enter mode).workspace.current? = some s :=
  hs

theorem rests_enter_normal (hediting : ed.mode.isEditing = false) :
    ed.Rests (ed.enter .normal) :=
  ⟨rfl, rfl, hediting.symm, fun _ => rfl, rfl, fun h => h.of_normal rfl rfl⟩

/-! ## Selecting -/

theorem follows_select {set : SelectionSet} (hs : ed.workspace.current? = some s)
    (hset : s.Offers set) : ed.Follows trips (ed.select set) :=
  .of_turn (.select _ hs hset) rfl rfl rfl rfl rfl

theorem follows_selectOrTell {set : Except SelectionError SelectionSet}
    (hs : ed.workspace.current? = some s) (hset : ∀ t, set = .ok t → s.Offers t) :
    ed.Follows trips (ed.selectOrTell set) := by
  rcases set with error | t
  · exact (rests_tell ed _).follows
  · exact follows_select hs (hset t rfl)

theorem follows_of_move? {key : Key} {count : Nat} {letters : Bool}
    (hs : ed.workspace.current? = some s)
    (h : ed.move? s key count letters = some ed') : ed.Follows trips ed' := by
  rcases Option.map_eq_some_iff.1 h with ⟨⟨unit, extend⟩, -, rfl⟩
  exact follows_select hs (.moveCursors _ extend)

/-- A key that is no movement leaves the state. -/
theorem follows_move?_getD (hs : ed.workspace.current? = some s) (key : Key) :
    ed.Follows trips ((ed.move? s key 1 false).getD ed) := by
  rcases hmove : ed.move? s key 1 false with _ | ed'
  · exact .refl ed
  · exact follows_of_move? hs hmove

/-! ## Editing -/

theorem followsTo_edit {edited : Except RangeError Edited}
    (hs : ed.workspace.current? = some s) (he : ∀ e, edited = .ok e → s.Edits e) :
    ed.FollowsTo trips (ed.edit s edited) := by
  rcases edited with error | e
  · exact .error _
  · exact .ok (.of_turn (.edit _ hs (he e rfl)) rfl rfl rfl rfl rfl)

/-- Copying changes nothing but the registers. -/
theorem exists_registers_of_copy (h : ed.copy s = .ok ed') :
    ∃ registers, ed' = { ed with registers } := by
  rw [copy] at h
  split at h
  · cases h
    exact ⟨_, rfl⟩
  · cases h

theorem rests_of_copy (h : ed.copy s = .ok ed') : ed.Rests ed' := by
  rcases exists_registers_of_copy h with ⟨registers, rfl⟩
  exact ⟨rfl, rfl, rfl, fun _ => rfl, rfl, fun h => h.of_same rfl rfl rfl⟩

theorem followsTo_copy_tell (ed : Editor) (s : Session) (notice : Notice) :
    ed.FollowsTo trips (ed.copy s >>= fun copied => return copied.tell notice) := by
  rcases hcopy : ed.copy s with fault | copied
  · exact .error fault
  · exact .ok ((rests_of_copy hcopy).trans_follows (rests_tell copied notice).follows)

theorem followsTo_cut (hs : ed.workspace.current? = some s) : ed.FollowsTo trips (ed.cut s) := by
  rw [cut]
  rcases hcopy : ed.copy s with fault | copied
  · exact .error fault
  · have hrests := rests_of_copy hcopy
    rw [← hrests.workspace] at hs
    exact hrests.trans_followsTo (followsTo_edit hs fun e he => .delete he)

theorem followsTo_paste (hs : ed.workspace.current? = some s) (side : Side) (count : Nat) :
    ed.FollowsTo trips (ed.paste s side count) := by
  simp only [paste]
  refine .ite (.ok (rests_tell ed _).follows) (.ite (.ok (rests_tell ed _).follows) ?_)
  exact followsTo_edit hs fun e he => .paste he

theorem followsTo_insertByte (hs : ed.workspace.current? = some s) (side : Side)
    (byte : UInt8) : ed.FollowsTo trips (ed.insertByte s side byte) :=
  followsTo_edit hs fun _ he => .insert he

theorem followsTo_overwriteWith (hs : ed.workspace.current? = some s) (byte : UInt8) :
    ed.FollowsTo trips (ed.overwriteWith s byte) :=
  followsTo_edit hs fun _ he => .overwrite he

/-! ## Beginning and ending to type bytes -/

theorem follows_beginInsert (hmode : ed.mode = .normal) (hcount : ed.count = .empty)
    (encoding : Encoding) (side : Side) : ed.Follows trips (ed.beginInsert encoding side) := by
  refine ⟨?_, fun h => h.of_count (Mode.valid_insert_none encoding side) hcount rfl, rfl,
    fun _ => rfl, .inl rfl⟩
  rw [hmode]
  exact .beginGroup

theorem follows_beginReplace (hmode : ed.mode = .normal) (hcount : ed.count = .empty)
    (encoding : Encoding) : ed.Follows trips (ed.beginReplace encoding) := by
  refine ⟨?_, fun h => h.of_count (Mode.valid_replace_none encoding) hcount rfl, rfl,
    fun _ => rfl, .inl rfl⟩
  rw [hmode]
  exact .beginGroup

/-- The change commands open a group and cut within it. -/
theorem followsTo_change (hs : ed.workspace.current? = some s) (hmode : ed.mode = .normal)
    (hcount : ed.count = .empty) (encoding : Encoding) :
    ed.FollowsTo trips ((ed.beginInsert encoding .before).cut s.beginGroup) := by
  rw [cut]
  rcases hcopy : (ed.beginInsert encoding .before).copy s.beginGroup with fault | copied
  · exact .error fault
  · rcases exists_registers_of_copy hcopy with ⟨registers, rfl⟩
    rcases hdelete : s.buffer.delete s.selections with error | e
    · intro next hnext
      simp only [Session.beginGroup, hdelete, bind, Except.bind, edit] at hnext
      cases hnext
    · intro next hnext
      simp only [Session.beginGroup, hdelete, bind, Except.bind, edit] at hnext
      cases hnext
      refine ⟨?_, fun h => h.of_count (Mode.valid_insert_none encoding .before) hcount rfl, rfl,
        fun _ => rfl, .inl rfl⟩
      rw [hmode]
      exact .change (s := s) hs (.delete hdelete)

theorem follows_endEditing (hediting : ed.mode.isEditing = true) :
    ed.Follows trips ed.endEditing := by
  refine ⟨?_, fun h => h.of_normal rfl rfl, rfl, fun _ => rfl, .inl rfl⟩
  rw [hediting]
  exact .commitGroup

/-- Bytes may be replaced once more when the replacing ends. -/
theorem followsTo_overwriteWith_endEditing (hs : ed.workspace.current? = some s)
    (hediting : ed.mode.isEditing = true) (byte : UInt8) :
    ed.FollowsTo trips ((ed.overwriteWith s byte).map endEditing) := by
  rw [overwriteWith]
  rcases hedited : s.buffer.overwrite s.selections byte with error | e
  · exact .error _
  · apply FollowsTo.ok
    refine ⟨?_, fun h => h.of_normal rfl rfl, rfl, fun _ => rfl, .inl rfl⟩
    rw [hediting]
    exact .finish hs (.overwrite hedited)

/-! ## Command lines -/

theorem follows_closeSession (hediting : ed.mode.isEditing = false) (force : Bool) :
    ed.Follows trips (ed.closeSession force) := by
  rw [closeSession]
  split
  · exact (rests_tell ed _).follows
  · rename_i w hclose
    have hturn : Workspace.Turn ed.disk.directory trips ed.workspace ed.mode.isEditing w
        ed.mode.isEditing := by
      rw [hediting]
      exact .close hclose
    dsimp only
    split
    · rename_i hnone
      exact ⟨hturn, fun h => h.of_same rfl rfl rfl, rfl, fun _ => rfl, .inr hnone⟩
    · exact .of_turn hturn rfl rfl rfl rfl rfl

/-- Saving leaves the sessions and the disk that saving the current one leaves, or without
a current session the disk after an empty session was saved. -/
theorem exists_of_writeSession {args : List Text} {report : FileReport}
    (h : ed.writeSession args = .ok (ed', report)) :
    (∃ v, ed.workspace.write? ed.disk args.head? = some v ∧
      ed' = { ed with workspace := v.1, disk := v.2.1, notice := .file report }) ∨
    (ed.workspace.current? = none ∧
      ed' = { ed with
        disk := (Session.scratch.save ed.disk args.head?).2.1
        notice := .file report
        astray := true }) := by
  rw [writeSession] at h
  split at h
  · rename_i hwrite
    cases h
    exact .inr ⟨Option.map_eq_none_iff.1 hwrite, rfl⟩
  · rename_i hwrite
    cases h
    exact .inl ⟨_, hwrite, rfl⟩

theorem exists_of_run_write {args : List Text} (h : ed.run .write args = .ok ed') :
    ∃ report, ed.writeSession args = .ok (ed', report) := by
  rw [run] at h
  rcases hwrite : ed.writeSession args with fault | ⟨written, report⟩
  · rw [hwrite] at h
    cases h
  · rw [hwrite] at h
    cases h
    exact ⟨report, rfl⟩

/-- The session is closed unless saving it failed. -/
theorem exists_of_run_writeAndClose {args : List Text}
    (h : ed.run .writeAndClose args = .ok ed') :
    ∃ written report, ed.writeSession args = .ok (written, report) ∧
      (ed' = written ∨ ed' = written.closeSession true) := by
  rw [run] at h
  rcases hwrite : ed.writeSession args with fault | ⟨written, report⟩
  · rw [hwrite] at h
    cases h
  · rw [hwrite] at h
    cases h
    refine ⟨written, report, rfl, ?_⟩
    split_ifs
    · exact .inl rfl
    · exact .inr rfl

theorem mode_of_writeSession {args : List Text} {report : FileReport}
    (h : ed.writeSession args = .ok (ed', report)) : ed'.mode = ed.mode := by
  rcases exists_of_writeSession h with ⟨v, -, rfl⟩ | ⟨-, rfl⟩
  · rfl
  · rfl

theorem follows_of_writeSession {args : List Text} {report : FileReport}
    (hediting : ed.mode.isEditing = false) (h : ed.writeSession args = .ok (ed', report)) :
    ed.Follows trips ed' := by
  rcases exists_of_writeSession h with ⟨v, hwrite, rfl⟩ | ⟨-, rfl⟩
  · refine .of_turn ?_ rfl rfl rfl (Workspace.directory_write? hwrite) rfl
    rw [hediting]
    exact .write hwrite
  · exact .of_turn (.rest _) rfl rfl rfl (Session.directory_save _ _ _) rfl

/-- A session that has been saved can be closed with the same command. -/
theorem follows_of_writeSession_closeSession {args : List Text} {report : FileReport}
    (hediting : ed.mode.isEditing = false) (h : ed.writeSession args = .ok (ed', report))
    (force : Bool) : ed.Follows trips (ed'.closeSession force) := by
  have hwritten : ed.Follows trips ed' := follows_of_writeSession hediting h
  have hquit : ed'.quit = ed.quit := by
    rcases exists_of_writeSession h with ⟨v, -, rfl⟩ | ⟨-, rfl⟩
    · rfl
    · rfl
  have hturn : ∀ {w : Workspace}, ed'.workspace.close? force = .ok w →
      Workspace.Turn ed.disk.directory trips ed.workspace ed.mode.isEditing w
        ed'.mode.isEditing := by
    intro w hclose
    rw [mode_of_writeSession h, hediting]
    rcases exists_of_writeSession h with ⟨v, hwrite, rfl⟩ | ⟨-, rfl⟩
    · exact .writeAndClose hwrite hclose
    · exact .close hclose
  rw [closeSession]
  split
  · exact ⟨hwritten.turn, fun h => (hwritten.tidy h).of_same rfl rfl rfl, hwritten.directory,
      hwritten.count, hwritten.quit⟩
  · rename_i w hclose
    dsimp only
    split
    · rename_i hnone
      exact ⟨hturn hclose, fun h => (hwritten.tidy h).of_same rfl rfl rfl, hwritten.directory,
        hwritten.count, .inr hnone⟩
    · exact ⟨hturn hclose, fun h => (hwritten.tidy h).of_same rfl rfl rfl, hwritten.directory,
        hwritten.count, .inl hquit⟩

/-- A width that is accepted is one that the rows can have. -/
theorem bounds_of_check_eq_ok {args : List Text} {width : Nat}
    (h : WidthError.check args = .ok width) : 1 ≤ width ∧ width ≤ widthLimit := by
  rcases args with _ | ⟨arg, others⟩
  · cases h
  · simp only [WidthError.check] at h
    split_ifs at h with _ _ hsmall hlarge
    cases h
    omega

theorem followsTo_run (hediting : ed.mode.isEditing = false) (command : Command)
    (args : List Text) : ed.FollowsTo trips (ed.run command args) := by
  have hturn : ∀ {w : Workspace},
      Workspace.Turn ed.disk.directory trips ed.workspace false w false →
        Workspace.Turn ed.disk.directory trips ed.workspace ed.mode.isEditing w
          ed.mode.isEditing := by
    intro w h
    rw [hediting]
    exact h
  cases command with
  | close force => exact .ok (follows_closeSession hediting force)
  | write =>
      rw [run]
      rcases hwrite : ed.writeSession args with fault | ⟨written, report⟩
      · exact .error fault
      · exact .ok (follows_of_writeSession hediting hwrite)
  | writeAll =>
      exact .ok (.of_turn (hturn (.writeAll ed.disk)) rfl rfl rfl
        (ed.workspace.directory_writeAll ed.disk) rfl)
  | writeAndClose =>
      rw [run]
      rcases hwrite : ed.writeSession args with fault | ⟨written, report⟩
      · exact .error fault
      · exact .ok (.ite (follows_of_writeSession hediting hwrite)
          (follows_of_writeSession_closeSession hediting hwrite true))
  | edit =>
      rcases args with _ | ⟨path, others⟩
      · exact .ok (rests_tell ed _).follows
      · exact .ok (.of_turn (hturn (.openPath ed.disk rfl path)) rfl rfl rfl rfl rfl)
  | next => exact .ok (.of_turn (hturn .next) rfl rfl rfl rfl rfl)
  | previous => exact .ok (.of_turn (hturn .previous) rfl rfl rfl rfl rfl)
  | setWidth =>
      rw [run]
      split
      · exact .ok (rests_tell ed _).follows
      · rename_i width hwidth
        exact .ok ⟨.rest _, fun h => ⟨h.mode, h.count, bounds_of_check_eq_ok hwidth⟩, rfl,
          fun _ => rfl, .inl rfl⟩
  | setSwitch switch =>
      rw [run]
      split
      · exact .ok (rests_tell ed _).follows
      · refine .ok ⟨.rest _, fun h => ⟨h.mode, h.count, ?_⟩, rfl, fun _ => rfl, .inl rfl⟩
        cases switch <;> exact h.width

theorem followsTo_execute (hediting : ed.mode.isEditing = false) (line : Text) :
    ed.FollowsTo trips (ed.execute line) := by
  rw [execute]
  split
  · exact .ok (.refl ed)
  · exact .ok (rests_tell ed _).follows
  · exact followsTo_run hediting _ _

/-- Command lines do not change the mode. -/
theorem mode_closeSession (ed : Editor) (force : Bool) :
    (ed.closeSession force).mode = ed.mode := by
  rw [closeSession]
  split
  · rfl
  · dsimp only
    split <;> rfl

theorem mode_of_run {command : Command} {args : List Text}
    (h : ed.run command args = .ok ed') : ed'.mode = ed.mode := by
  cases command with
  | close force =>
      cases h
      exact mode_closeSession ed force
  | write =>
      rcases exists_of_run_write h with ⟨report, hwrite⟩
      exact mode_of_writeSession hwrite
  | writeAndClose =>
      rcases exists_of_run_writeAndClose h with ⟨written, report, hwrite, rfl | rfl⟩
      · exact mode_of_writeSession hwrite
      · exact (mode_closeSession _ true).trans (mode_of_writeSession hwrite)
  | edit =>
      rcases args with _ | ⟨path, others⟩
      · cases h
        rfl
      · cases h
        rfl
  | setWidth =>
      rw [run] at h
      split at h <;> cases h <;> rfl
  | setSwitch switch =>
      rw [run] at h
      split at h <;> cases h <;> rfl
  | writeAll => cases h; rfl
  | next => cases h; rfl
  | previous => cases h; rfl

theorem mode_of_execute {line : Text} (h : ed.execute line = .ok ed') :
    ed'.mode = ed.mode := by
  rw [execute] at h
  split at h
  · cases h
    rfl
  · cases h
    rfl
  · exact mode_of_run h

/-- What every step keeps, a sequence of steps keeps. -/
theorem foldlM_preserves {α : Type} {f : Editor → α → Except Fault Editor} {P : Editor → Prop}
    (hstep : ∀ {ed ed' : Editor} {x : α}, P ed → f ed x = .ok ed' → P ed') {xs : List α}
    (h : P ed) (ran : xs.foldlM f ed = .ok ed') : P ed' := by
  induction xs generalizing ed with
  | nil =>
      cases ran
      exact h
  | cons x xs ih =>
      rw [List.foldlM_cons] at ran
      rcases hx : f ed x with fault | next
      · rw [hx] at ran
        cases ran
      · rw [hx] at ran
        exact ih (hstep h hx) ran

/-- What every state keeps that follows another without a trip, a file of command lines keeps. -/
theorem runFile_induction {P : Editor → Prop}
    (hfollows : ∀ {ed ed' : Editor}, P ed → ed.Follows (fun _ => False) ed' → P ed') {path : Text}
    (hediting : ed.mode.isEditing = false) (h : P ed) (ran : ed.runFile path = .ok ed') :
    P ed' := by
  rw [runFile] at ran
  split_ifs at ran
  · split at ran
    · cases ran
      exact hfollows h (rests_tell ed _).follows
    · -- commands are read before every line
      apply (foldlM_preserves (P := fun ed => ed.mode.isEditing = false ∧ P ed) _
        ⟨hediting, h⟩ ran).2
      rintro ed ed' line ⟨hediting, h⟩ hline
      rw [mode_of_execute hline]
      exact ⟨hediting, hfollows h (followsTo_execute hediting line ed' hline)⟩
  · cases ran
    exact h

/-! ## Keys -/

/-- Going back or forth leads to the session that is left, if there is one. -/
theorem follows_backOrForth {back : Option Session} (otherwise : Notice)
    (hback : ∀ t, back = some t → Workspace.Turn ed.disk.directory trips ed.workspace
      ed.mode.isEditing (ed.workspace.modifyCurrent fun _ => t) ed.mode.isEditing) :
    ed.Follows trips (ed.backOrForth back otherwise) := by
  rcases back with _ | t
  · exact (rests_tell ed _).follows
  · exact .of_turn (hback t rfl) rfl rfl rfl rfl rfl

/-- The only commands that make a trip are `u` and `U`. -/
theorem followsTo_command (hs : ed.workspace.current? = some s) (hmode : ed.mode = .normal)
    (hcount : ed.count = .empty) (c : Int) (count : Nat) (typed : Bool)
    (hback : c = code 'u' → trips (.back (max count 1)))
    (hforth : c = code 'U' → trips (.forth (max count 1))) :
    ed.FollowsTo trips (ed.command s c count typed) := by
  have henter : ∀ mode : Mode, mode.isEditing = false → mode.Valid →
      ed.Follows trips (ed.enter mode) := by
    intro mode hediting hvalid
    apply (rests_enter (.inr hcount) _ hvalid).follows
    rw [hediting, hmode]
    rfl
  have hprompt : Prompt.empty.cursor ≤ Prompt.empty.text.length := Nat.le_refl 0
  simp only [command]
  -- jumping, and choosing among the selections
  refine .ite (.ok (.ite (follows_select hs (.moveCursors _ _)) (henter _ rfl trivial))) ?_
  refine .ite (.ok (follows_select hs .collapse)) ?_
  refine .ite (.ok (follows_select hs .all)) ?_
  refine .ite (.ok (follows_select hs (.keep _))) ?_
  refine .ite (.ok (follows_select hs (.cycleBackward count))) ?_
  refine .ite (.ok (follows_select hs (.cycleForward count))) ?_
  -- prompts for a pattern
  refine .ite (.ok (henter _ rfl hprompt)) ?_
  refine .ite (.ok (henter _ rfl hprompt)) ?_
  refine .ite (.ok (henter _ rfl hprompt)) ?_
  refine .ite (.ok (henter _ rfl hprompt)) ?_
  -- cutting, copying and pasting
  refine .ite (followsTo_cut hs) ?_
  refine .ite (followsTo_copy_tell ed s _) ?_
  refine .ite (followsTo_change hs hmode hcount .ascii) ?_
  refine .ite (followsTo_change hs hmode hcount .hex) ?_
  refine .ite (followsTo_paste hs .after count) ?_
  refine .ite (followsTo_paste hs .before count) ?_
  -- beginning to insert or to replace
  refine .ite (.ok (follows_beginInsert hmode hcount .ascii .before)) ?_
  refine .ite (.ok (follows_beginInsert hmode hcount .hex .before)) ?_
  refine .ite (.ok (follows_beginInsert hmode hcount .ascii .after)) ?_
  refine .ite (.ok (follows_beginInsert hmode hcount .hex .after)) ?_
  refine .ite (.ok (follows_beginReplace hmode hcount .ascii)) ?_
  refine .ite (.ok (follows_beginReplace hmode hcount .hex)) ?_
  -- measuring, going back and forth, and the prompt for a command
  refine .ite (.ok (rests_tell ed _).follows) ?_
  by_cases hu : c = code 'u'
  · rw [if_pos hu]
    refine .ok (follows_backOrForth _ fun t ht => ?_)
    rw [hmode]
    exact .undo (hback hu) hs ht
  rw [if_neg hu]
  by_cases hU : c = code 'U'
  · rw [if_pos hU]
    refine .ok (follows_backOrForth _ fun t ht => ?_)
    rw [hmode]
    exact .redo (hforth hU) hs ht
  rw [if_neg hU]
  exact .ite (.ok (henter _ rfl hprompt)) (.ok (.refl ed))

/-- The trips that a key may make.  Where commands are read, `u` goes back and `U` goes forth, as
many changes as the count says. -/
def keyTrips (ed : Editor) (key : Key) : Trip → Prop
  | .back count => ed.mode = .normal ∧ key = .plain (code 'u') ∧ count = max (ed.count.valueOr 1) 1
  | .forth count => ed.mode = .normal ∧ key = .plain (code 'U') ∧ count = max (ed.count.valueOr 1) 1

theorem followsTo_pressNormal (hs : ed.workspace.current? = some s) (hmode : ed.mode = .normal)
    (key : Key) : ed.FollowsTo (ed.keyTrips key) (ed.pressNormal s key) := by
  have htyping : ed.mode.isEditing ≠ true := by
    rw [hmode]
    exact Bool.false_ne_true
  have hcounted : ∀ count, ed.Follows (ed.keyTrips key) { ed with count } := by
    intro count
    exact ⟨.rest _, fun h => h.of_normal hmode rfl, rfl, fun h => absurd h htyping, .inl rfl⟩
  rw [pressNormal]
  refine .ite (.ok (hcounted _)) ?_
  rcases countKey? ed.count key with _ | count
  · refine .ite (.ok ⟨?_, fun h => ⟨trivial, .inl rfl, h.width⟩, rfl, fun _ => rfl, .inl rfl⟩) ?_
    · rw [hmode]
      exact .rest _
    -- from here on the count is used up and the notice is blank
    generalize hcleared : { ed with count := .empty, notice := .blank } = cleared
    have hrests : ed.Rests cleared := by
      rw [← hcleared]
      exact ⟨rfl, rfl, rfl, fun h => absurd h htyping, rfl, fun h => h.of_normal hmode rfl⟩
    have hcount : cleared.count = .empty := by rw [← hcleared]
    have hcommands : cleared.mode = .normal := by
      rw [← hcleared]
      exact hmode
    rw [← hrests.workspace] at hs
    apply hrests.trans_followsTo
    dsimp only
    rcases hmove : cleared.move? s key (ed.count.valueOr 1) true with _ | moved
    · refine .ite (.ok (follows_select hs .swapEnds)) ?_
      refine .ite (.ok (follows_selectOrTell hs fun t ht => .drop ht)) ?_
      rcases hplain : key.plain? with _ | c
      · exact .ok (.refl cleared)
      · have hkey := Key.eq_plain_of_plain? hplain
        apply followsTo_command hs hcommands hcount c
        · rintro rfl
          exact ⟨hmode, hkey, rfl⟩
        · rintro rfl
          exact ⟨hmode, hkey, rfl⟩
    · exact .ok (follows_of_move? hs hmove)
  · exact .ok (hcounted count)

theorem follows_pressJump (hs : ed.workspace.current? = some s)
    (hediting : ed.mode.isEditing = false) (extend : Bool) (key : Key) :
    ed.Follows trips (ed.pressJump s extend key) := by
  have hrests := rests_enter_normal hediting
  have hmoved : ∀ target : Nat → Nat, ed.Follows trips ((ed.enter .normal).select
      (s.selections.moveCursors target extend s.buffer.length)) :=
    fun target => hrests.trans_follows (follows_select hs (.moveCursors target extend))
  simp only [pressJump]
  rcases key.plain? with _ | c
  · exact hrests.follows
  · refine .ite (hmoved _) (.ite (hmoved _) (.ite (hmoved _) (.ite (hmoved _) ?_)))
    exact hrests.follows

theorem follows_pressSplit (hs : ed.workspace.current? = some s) (hmode : ed.mode = .split)
    (key : Key) : ed.Follows trips (ed.pressSplit s key) := by
  have htyping : ed.mode.isEditing ≠ true := by
    rw [hmode]
    exact Bool.false_ne_true
  generalize hcleared : ({ ed with count := .empty }.enter .normal) = cleared
  have hrests : ed.Rests cleared := by
    rw [← hcleared]
    exact ⟨rfl, rfl, by rw [hmode]; rfl, fun h => absurd h htyping, rfl,
      fun h => h.of_normal rfl rfl⟩
  have hprompt : ∀ encoding, cleared.Follows trips
      (cleared.enter (.pattern encoding .split .empty)) := by
    intro encoding
    apply (rests_enter (.inr _) _ _).follows
    · rw [← hcleared]
      rfl
    · rw [← hcleared]
      rfl
    · exact Nat.le_refl 0
  rw [← hrests.workspace] at hs
  rw [pressSplit, hcleared]
  refine .ite hrests.follows ?_
  rcases countKey? ed.count key with _ | count
  · apply hrests.trans_follows
    dsimp only
    rcases key.plain? with _ | c
    · exact .refl cleared
    · dsimp only
      rcases pieceWidth? c with _ | width
      · refine .ite (follows_selectOrTell hs fun t ht => .splitNull ht) ?_
        exact .ite (hprompt .ascii) (.ite (hprompt .hex) (.refl cleared))
      · exact follows_select hs (.splitWidth _)
  · refine ⟨.rest _, fun h => ⟨h.mode, .inl ?_, h.width⟩, rfl, fun h => absurd h htyping,
      .inl rfl⟩
    rw [hmode]
    rfl

theorem followsTo_pressInsert (hs : ed.workspace.current? = some s) {encoding : Encoding}
    {side : Side} {half : Option UInt8} (hmode : ed.mode = .insert encoding side half)
    (key : Key) : ed.FollowsTo trips (ed.pressInsert s encoding side half key) := by
  have hediting : ed.mode.isEditing = true := by
    rw [hmode]
    rfl
  have henter : ∀ {encoding : Encoding} {half : Option UInt8},
      (Mode.insert encoding side half).Valid →
        ed.Rests (ed.enter (.insert encoding side half)) := by
    intro encoding half hvalid
    refine rests_enter (.inl ?_) hediting.symm hvalid
    rw [hmode]
    rfl
  have hclear : ∀ encoding, ed.Rests (ed.enter (.insert encoding side none)) :=
    fun encoding => henter (Mode.valid_insert_none encoding side)
  have hmove : ed.Follows trips (((ed.enter (.insert encoding side none)).move? s key 1 false).getD
      (ed.enter (.insert encoding side none))) :=
    (hclear encoding).trans_follows (follows_move?_getD (current?_enter hs _) key)
  cases key with
  | escape => exact .ok (follows_endEditing hediting)
  | backspace =>
      exact .ite (.ok (hclear _).follows) (followsTo_edit hs fun e he => .eraseBefore he)
  | delete => exact followsTo_edit hs fun e he => .eraseAt he
  | enter => exact .ite (followsTo_insertByte hs side 10) (.ok (.refl ed))
  | tab => exact .ite (followsTo_insertByte hs side 9) (.ok (.refl ed))
  | unknown => exact .ok (.refl ed)
  | char c ctrl alt =>
      simp only [pressInsert]
      refine .ite (.ok (hclear _).follows) ?_
      refine .ite ((hclear _).trans_followsTo
        (followsTo_insertByte (current?_enter hs _) side 0)) ?_
      refine .ite (.ok (.refl ed)) ?_
      by_cases hascii : encoding = .ascii
      · rw [if_pos hascii]
        exact followsTo_insertByte hs side _
      · rw [if_neg hascii]
        rcases hexDigitOfCode? c with _ | digit
        · exact .ok (rests_tell ed _).follows
        · rcases half with _ | half
          · refine .ok (henter ?_).follows
            intro b hb
            cases hb
            refine ⟨?_, toNat_upperHalf digit⟩
            cases encoding
            · rfl
            · exact absurd rfl hascii
          · exact (hclear _).trans_followsTo
              (followsTo_insertByte (current?_enter hs _) side _)
  | left => exact .ok hmove
  | right => exact .ok hmove
  | up => exact .ok hmove
  | down => exact .ok hmove

theorem followsTo_pressReplace (hs : ed.workspace.current? = some s) {encoding : Encoding}
    {half : Option UInt8} (hmode : ed.mode = .replace encoding half) (key : Key) :
    ed.FollowsTo trips (ed.pressReplace s encoding half key) := by
  have hediting : ed.mode.isEditing = true := by
    rw [hmode]
    rfl
  have henter : ∀ {encoding : Encoding} {half : Option UInt8},
      (Mode.replace encoding half).Valid → ed.Rests (ed.enter (.replace encoding half)) := by
    intro encoding half hvalid
    refine rests_enter (.inl ?_) hediting.symm hvalid
    rw [hmode]
    rfl
  have hclear : ∀ encoding, ed.Rests (ed.enter (.replace encoding none)) :=
    fun encoding => henter (Mode.valid_replace_none encoding)
  have hend : ed.FollowsTo trips (.ok ed.endEditing) := .ok (follows_endEditing hediting)
  have hmove : ed.Follows trips (if half.isSome then ed else (ed.move? s key 1 false).getD ed) :=
    .ite (.refl ed) (follows_move?_getD hs key)
  cases key with
  | char c ctrl alt =>
      simp only [pressReplace]
      refine .ite (followsTo_overwriteWith_endEditing hs hediting 0) ?_
      refine .ite (.ok (hclear _).follows) ?_
      refine .ite hend ?_
      by_cases hascii : encoding = .ascii
      · rw [if_pos hascii]
        exact followsTo_overwriteWith hs _
      · rw [if_neg hascii]
        rcases hexDigitOfCode? c with _ | digit
        · exact hend
        · rcases half with _ | half
          · refine .ok (henter ?_).follows
            intro b hb
            cases hb
            refine ⟨?_, toNat_upperHalf digit⟩
            cases encoding
            · rfl
            · exact absurd rfl hascii
          · exact (hclear _).trans_followsTo
              (followsTo_overwriteWith (current?_enter hs _) _)
  | left => exact .ok hmove
  | right => exact .ok hmove
  | up => exact .ok hmove
  | down => exact .ok hmove
  | escape => exact hend
  | backspace => exact hend
  | delete => exact hend
  | enter => exact hend
  | tab => exact hend
  | unknown => exact hend

theorem follows_runPattern (hs : ed.workspace.current? = some s) (purpose : Purpose)
    (pattern : Pattern) : ed.Follows trips (ed.runPattern s purpose pattern) := by
  simp only [runPattern]
  split
  · exact (rests_tell ed _).follows
  · rename_i found hfound
    have hoffers : s.Offers found := by
      cases purpose with
      | selectInSelections => exact .selectMatching hfound
      | selectInBuffer => exact .selectMatching hfound
      | split => exact .splitPattern hfound
    exact (rests_tell ed _).trans_follows (follows_select hs hoffers)

theorem follows_pressPattern (hs : ed.workspace.current? = some s) {encoding : Encoding}
    {purpose : Purpose} {prompt : Prompt} (hmode : ed.mode = .pattern encoding purpose prompt)
    (key : Key) : ed.Follows trips (ed.pressPattern s encoding purpose prompt key) := by
  have hediting : ed.mode.isEditing = false := by
    rw [hmode]
    rfl
  have hleave := rests_enter_normal hediting
  -- the prompt that was valid before is at hand where the next one has to be
  have hprompt : ∀ (encoding : Encoding) (next : Prompt),
      (prompt.cursor ≤ prompt.text.length → next.cursor ≤ next.text.length) →
        ed.Follows trips (ed.enter (.pattern encoding purpose next)) := by
    intro encoding next hnext
    refine ⟨?_, fun h => h.of_count (hnext ?_) (h.count_eq_empty ?_) rfl, rfl, fun _ => rfl,
      .inl rfl⟩
    · rw [hmode]
      exact .rest _
    · have hvalid := h.mode
      rw [hmode] at hvalid
      exact hvalid
    · rw [hmode]
      rfl
  simp only [pressPattern]
  refine .ite hleave.follows (.ite ?_ (.ite ?_ (.ite ?_ (.ite ?_ ?_))))
  · rcases Pattern.parse encoding prompt.text with error | pattern
    · exact (rests_tell ed _).follows
    · exact .ite hleave.follows (hleave.trans_follows
        (follows_runPattern (current?_enter hs .normal) purpose pattern))
  · exact hprompt _ _ fun h => Prompt.cursor_le_of_insert h _
  · exact hprompt _ _ fun h => Prompt.cursor_le_of_insert h _
  · rcases Pattern.parse encoding prompt.text with error | pattern
    · exact (rests_tell ed _).follows
    · exact hprompt _ _ fun _ => Nat.le_refl _
  · rcases hedit : prompt.edit? key with _ | edited
    · exact .refl ed
    · exact hprompt _ _ fun h => Prompt.cursor_le_of_edit? h hedit

theorem followsTo_pressCommand {prompt : Prompt} (hmode : ed.mode = .command prompt)
    (key : Key) : ed.FollowsTo trips (ed.pressCommand prompt key) := by
  have hediting : ed.mode.isEditing = false := by
    rw [hmode]
    rfl
  have hleave := rests_enter_normal hediting
  rw [pressCommand]
  refine .ite (.ok hleave.follows) ?_
  refine .ite (hleave.trans_followsTo (followsTo_execute rfl prompt.text)) ?_
  refine .ite (.ok hleave.follows) ?_
  rcases hedit : prompt.edit? key with _ | edited
  · exact .ok (.refl ed)
  · refine .ok ⟨?_, fun h => h.of_count ?_ (h.count_eq_empty ?_) rfl, rfl, fun _ => rfl,
      .inl rfl⟩
    · rw [hmode]
      exact .rest _
    · have hvalid := h.mode
      rw [hmode] at hvalid
      exact Prompt.cursor_le_of_edit? hvalid hedit
    · rw [hmode]
      rfl

/-- Whatever key is pressed in whatever mode, the state follows the one before. -/
theorem followsTo_press (ed : Editor) (key : Key) :
    ed.FollowsTo (ed.keyTrips key) (ed.press key) := by
  rw [press]
  refine .ite (.ok (.refl ed)) ?_
  rcases hs : ed.workspace.current? with _ | s
  · exact .ok (.refl ed)
  · dsimp only
    split
    · exact followsTo_pressNormal hs ‹_› key
    · rename_i extend hmode
      exact .ok (follows_pressJump hs (by rw [hmode]; rfl) extend key)
    · exact .ok (follows_pressSplit hs ‹_› key)
    · exact followsTo_pressInsert hs ‹_› key
    · exact followsTo_pressReplace hs ‹_› key
    · exact .ok (follows_pressPattern hs ‹_› key)
    · exact followsTo_pressCommand ‹_› key

end Editor

end HexEditor
