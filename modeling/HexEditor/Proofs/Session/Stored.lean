import HexEditor.Proofs.Rope.Marked
import HexEditor.Proofs.Session.Return

/-!
# What the disk holds of a session

Whether a session is dirty is read off the identity of two versions, while what matters is
whether its bytes are on the disk.  To compare the two, the bytes that every session has last
loaded or written are kept beside the sessions.  Nothing in the program depends on them.

Main results:

- Definition `Workspace.Run`: what can happen to the open sessions, with the bytes that each
  of them has last loaded or written.
- Theorem `Workspace.Moves.exists_run`: all that keys and commands do is such a run.
- Definition `Workspace.Filed` and theorem `Workspace.Run.filed`: all versions of all sessions
  are on one record of what their marks stand for.
- Theorem `Workspace.Run.stored_eq`: what is stored are the bytes of the versions that count
  as saved.
- Theorem `Workspace.clean_sessions_are_stored`: a session that is not dirty holds the bytes
  that are stored, so closing without force loses none, and undoing back to a version that
  was saved makes a session clean.
-/

namespace HexEditor

/-! ## All versions of a session -/

namespace History

variable {P Q : Snapshot → Prop} {h : History}

theorem All.imp (hall : h.All P) (hPQ : ∀ p, P p → Q p) : h.All Q := by
  refine ⟨?_, ?_, fun before hbefore => hPQ _ (hall.opened before hbefore)⟩
  · exact fun change hchange => (hall.done change hchange).imp (hPQ _) (hPQ _)
  · exact fun change hchange => (hall.undone change hchange).imp (hPQ _) (hPQ _)

end History

namespace Session

variable {s t : Session} {P Q : Rope → Prop}

/-- Every version that the session holds, the saved one and those of its history included,
has the property. -/
structure All (P : Rope → Prop) (s : Session) : Prop where
  buffer : P s.buffer
  saved : P s.saved
  history : s.history.All fun p => P p.buffer

theorem All.imp (h : s.All P) (hPQ : ∀ r, P r → Q r) : s.All Q :=
  ⟨hPQ _ h.buffer, hPQ _ h.saved, h.history.imp fun p => hPQ p.buffer⟩

theorem all_of_start (hbuffer : P s.buffer) (hsaved : s.saved = s.buffer)
    (hempty : s.history = .empty) : s.All P := by
  refine ⟨hbuffer, ?_, ?_⟩
  · rw [hsaved]
    exact hbuffer
  · rw [hempty]
    exact History.all_empty _

theorem All.beginGroup (h : s.All P) : s.beginGroup.All P :=
  ⟨h.buffer, h.saved, h.history.beginGroup h.buffer⟩

theorem All.commitGroup (h : s.All P) : s.commitGroup.All P :=
  ⟨h.buffer, h.saved, h.history.commitGroup h.buffer⟩

theorem All.apply (h : s.All P) {before : Snapshot} (hbefore : P before.buffer) {e : Edited}
    (he : P e.buffer) : (s.apply before e).All P := by
  rw [Session.apply]
  split_ifs
  · exact ⟨he, h.saved, h.history⟩
  · exact ⟨he, h.saved, h.history.record hbefore he⟩

theorem All.undo? (h : s.All P) {count : Nat} (ht : s.undo? count = some t) : t.All P := by
  have hcurrent : (fun p : Snapshot => P p.buffer) s.snapshot := h.buffer
  rcases all_undoSteps h.history hcurrent count with ⟨hp, hhistory⟩
  simp only [Session.undo?, Option.ite_none_left_eq_some, Option.some.injEq] at ht
  rw [← ht.2]
  exact ⟨hp, h.saved, hhistory⟩

theorem All.redo? (h : s.All P) {count : Nat} (ht : s.redo? count = some t) : t.All P := by
  have hcurrent : (fun p : Snapshot => P p.buffer) s.snapshot := h.buffer
  rcases all_redoSteps h.history hcurrent count with ⟨hp, hhistory⟩
  simp only [Session.redo?, Option.ite_none_left_eq_some, Option.some.injEq] at ht
  rw [← ht.2]
  exact ⟨hp, h.saved, hhistory⟩

theorem All.save (h : s.All P) (disk : Disk) (path : Option Text) :
    (s.save disk path).1.All P := by
  rw [Session.save]
  split
  · exact h
  · split
    · exact h
    · exact ⟨h.buffer, h.buffer, h.history⟩

/-! ## What is stored -/

theorem saved_undo? {count : Nat} (ht : s.undo? count = some t) : t.saved = s.saved := by
  simp only [Session.undo?, Option.ite_none_left_eq_some, Option.some.injEq] at ht
  rw [← ht.2]
  rfl

theorem saved_redo? {count : Nat} (ht : s.redo? count = some t) : t.saved = s.saved := by
  simp only [Session.redo?, Option.ite_none_left_eq_some, Option.some.injEq] at ht
  rw [← ht.2]
  rfl

/-- The bytes that the session has last loaded or written, after it has tried to save: its
own if a report says that it was saved, and otherwise those from before. -/
def storedAfterSave (s : Session) (disk : Disk) (path : Option Text) (stored : Bytes) : Bytes :=
  match (s.save disk path).2.2 with
  | .saved .. => s.buffer.toBytes
  | _ => stored

/-- The version that counts as saved holds the bytes that are stored. -/
theorem toBytes_saved_save (s : Session) (disk : Disk) (path : Option Text) :
    (s.save disk path).1.saved.toBytes = s.storedAfterSave disk path s.saved.toBytes := by
  rw [storedAfterSave, save]
  split
  · rfl
  · split <;> rfl

end Session

namespace Workspace

variable {w v : Workspace} {s t : Session} {stored : List Bytes}

/-- The bytes of the session that opening a path begins, if it begins one. -/
def loaded (w : Workspace) (disk : Disk) (path : Text) : List Bytes :=
  match w.find? disk.directory path with
  | some _ => []
  | none =>
    if disk.hasEntry path then
      match disk.load path with
      | .error _ => []
      | .ok bytes => [bytes]
    else [[]]

/-- The bytes that each session has last loaded or written, after all of them have been
saved in order up to the first that is refused. -/
def storedAfterEach (disk : Disk) : List Session → List Bytes → List Bytes
  | s :: sessions, bytes :: stored =>
    match s.path with
    | none => bytes :: storedAfterEach disk sessions stored
    | some _ =>
      match s.save disk none with
      | (_, disk, .saved ..) => s.buffer.toBytes :: storedAfterEach disk sessions stored
      | _ => bytes :: stored
  | _, stored => stored

/-- The versions that edits can lead to: those of open sessions, new ones of any bytes, and
versions with a range replaced. -/
inductive Derives (w : Workspace) : Rope → Prop where
  | current {s : Session} (hs : s ∈ w.sessions) : w.Derives s.buffer
  | ofBytes (bytes : Bytes) : w.Derives (.ofBytes bytes)
  | splice {r r' : Rope} {range : Range} {replacement : Bytes} (derives : w.Derives r)
      (spliced : r.splice range replacement = .ok r') : w.Derives r'

/-- What can happen to the open sessions, with the bytes that each of them has last loaded
or written; a session without a file has loaded none. -/
inductive Run : Workspace → List Bytes → Prop where
  | empty : Run .empty []
  | openPath {w : Workspace} {stored : List Bytes} (run : Run w stored) (disk : Disk)
      (path : Text) : Run (w.openPath disk path).1 (stored ++ w.loaded disk path)
  | openScratch {w : Workspace} {stored : List Bytes} (run : Run w stored) :
      Run w.openScratch (stored ++ [[]])
  | next {w : Workspace} {stored : List Bytes} (run : Run w stored) : Run w.next stored
  | previous {w : Workspace} {stored : List Bytes} (run : Run w stored) :
      Run w.previous stored
  | close {w v : Workspace} {stored : List Bytes} {force : Bool} (run : Run w stored)
      (hv : w.close? force = .ok v) : Run v (stored.eraseIdx w.current)
  | write {w : Workspace} {stored : List Bytes} {s : Session} {disk : Disk}
      {path : Option Text} {v : Workspace × Disk × FileReport} (run : Run w stored)
      (hs : w.current? = some s) (hv : w.write? disk path = some v) :
      Run v.1 (stored.modify w.current (s.storedAfterSave disk path))
  | writeAll {w : Workspace} {stored : List Bytes} (run : Run w stored) (disk : Disk) :
      Run (w.writeAll disk).1 (storedAfterEach disk w.sessions stored)
  | select {w : Workspace} {stored : List Bytes} (run : Run w stored) (set : SelectionSet) :
      Run (w.modifyCurrent fun s => { s with selections := set }) stored
  | edit {w : Workspace} {stored : List Bytes} {s : Session} {e : Edited}
      (run : Run w stored) (hs : w.current? = some s) (he : w.Derives e.buffer) :
      Run (w.applyEdit s.snapshot e) stored
  | beginGroup {w : Workspace} {stored : List Bytes} (run : Run w stored) :
      Run (w.modifyCurrent Session.beginGroup) stored
  | commitGroup {w : Workspace} {stored : List Bytes} (run : Run w stored) :
      Run (w.modifyCurrent Session.commitGroup) stored
  | undo {w : Workspace} {stored : List Bytes} {s t : Session} {count : Nat}
      (run : Run w stored) (hs : w.current? = some s) (ht : s.undo? count = some t) :
      Run (w.modifyCurrent fun _ => t) stored
  | redo {w : Workspace} {stored : List Bytes} {s t : Session} {count : Nat}
      (run : Run w stored) (hs : w.current? = some s) (ht : s.redo? count = some t) :
      Run (w.modifyCurrent fun _ => t) stored

/-! ## Moves are steps of a run -/

theorem Derives.of_edits (hs : s ∈ w.sessions) {e : Edited} (he : s.Edits e) :
    w.Derives e.buffer := by
  rcases he.exists_spliceAll with ⟨edits, hspliced⟩
  exact Rope.spliceAll_induction (fun derives hok => .splice derives hok) (.current hs) hspliced

theorem Run.exists_move {directory : Location} (h : w.Run stored)
    (hmove : Move directory w v) : ∃ stored', v.Run stored' := by
  cases hmove with
  | select _ _ => exact ⟨_, h.select _⟩
  | beginGroup => exact ⟨_, h.beginGroup⟩
  | commitGroup => exact ⟨_, h.commitGroup⟩
  | edit hs he => exact ⟨_, h.edit hs (.of_edits (mem_of_current? hs) he)⟩
  | undo hs ht => exact ⟨_, h.undo hs ht⟩
  | redo hs ht => exact ⟨_, h.redo hs ht⟩
  | openPath disk _ path => exact ⟨_, h.openPath disk path⟩
  | openScratch => exact ⟨_, h.openScratch⟩
  | close hv => exact ⟨_, h.close hv⟩
  | next => exact ⟨_, h.next⟩
  | previous => exact ⟨_, h.previous⟩
  | write hv =>
      rcases Option.map_eq_some_iff.1 hv with ⟨s, hs, -⟩
      exact ⟨_, h.write hs hv⟩
  | writeAll disk => exact ⟨_, h.writeAll disk⟩

/-- All that keys and commands do to the open sessions can be seen as such a run. -/
theorem Moves.exists_run {directory : Location} (h : Moves directory .empty w) :
    ∃ stored, w.Run stored := by
  induction h with
  | refl => exact ⟨[], .empty⟩
  | tail _ hmove ih =>
      rcases ih with ⟨stored, hrun⟩
      exact hrun.exists_move hmove

/-! ## One record for all versions -/

/-- The version is complete, and on a record of what marks stand for. -/
def Files (content : Mark → Bytes) (version : Nat) (r : Rope) : Prop :=
  r.Filed content version ∧ r.sameVersion r = true

/-- There is a record of what marks stand for, and all versions of all sessions are on it. -/
def Filed (w : Workspace) : Prop :=
  ∃ content, ∀ s ∈ w.sessions, s.All (Files content w.nextVersion)

theorem files_empty (content : Mark → Bytes) (version : Nat) : Files content version .empty :=
  ⟨Rope.filed_empty, rfl⟩

/-- Steps that make no version keep all versions on record. -/
theorem Filed.of_forall (h : w.Filed) (hversion : v.nextVersion = w.nextVersion)
    (hall : ∀ P : Rope → Prop, P .empty → (∀ s ∈ w.sessions, s.All P) →
      ∀ s ∈ v.sessions, s.All P) : v.Filed := by
  rcases h with ⟨content, h⟩
  refine ⟨content, ?_⟩
  rw [hversion]
  exact hall _ (files_empty content _) h

/-- Completing a version that is made of versions on record keeps all of them on record. -/
theorem exists_files_complete {content : Mark → Bytes} {r : Rope}
    (h : ∀ s ∈ w.sessions, s.All (Files content w.nextVersion))
    (hr : r.Filed content w.nextVersion) :
    ∃ content', (∀ s ∈ w.sessions, s.All (Files content' (w.nextVersion + 1))) ∧
      Files content' (w.nextVersion + 1) (r.complete w.nextVersion) := by
  rcases hr.complete with ⟨content', hkept, hcomplete⟩
  refine ⟨content', ?_, hcomplete, Rope.sameVersion_complete _ _⟩
  intro s hs
  exact (h s hs).imp fun r hr => ⟨hr.1.extend (Nat.le_succ _) hkept, hr.2⟩

theorem Filed.openPath (h : w.Filed) (disk : Disk) (path : Text) :
    (w.openPath disk path).1.Filed := by
  rcases h with ⟨content, h⟩
  rw [Workspace.openPath]
  split
  · exact ⟨content, h⟩
  · split_ifs
    · split
      · exact ⟨content, h⟩
      · rename_i bytes _
        rcases exists_files_complete h (Rope.filed_ofBytes bytes) with ⟨content', h', hfiles⟩
        exact ⟨content', forall_add h' (Session.all_of_start hfiles rfl rfl)⟩
    · exact ⟨content, forall_add h (Session.all_of_start (files_empty content _) rfl rfl)⟩

/-- Edits of versions on record give no mark out. -/
theorem Derives.filed {content : Mark → Bytes} {r : Rope} (hr : w.Derives r)
    (h : ∀ s ∈ w.sessions, s.All (Files content w.nextVersion)) :
    r.Filed content w.nextVersion := by
  induction hr with
  | current hs => exact (h _ hs).buffer.1
  | ofBytes bytes => exact Rope.filed_ofBytes bytes
  | splice _ hspliced ih => exact ih.splice hspliced

theorem Filed.applyEdit (h : w.Filed) (hs : w.current? = some s) {e : Edited}
    (he : w.Derives e.buffer) : (w.applyEdit s.snapshot e).Filed := by
  rcases h with ⟨content, h⟩
  rcases exists_files_complete h (he.filed h) with ⟨content', h', hfiles⟩
  refine ⟨content', ?_⟩
  apply forall_modifyCurrent h'
  intro s' _ hs'
  exact hs'.apply (h' s (mem_of_current? hs)).buffer hfiles

/-- All versions that come up in a run are on one record. -/
theorem Run.filed (h : w.Run stored) : w.Filed := by
  induction h with
  | empty =>
      refine ⟨fun _ => [], ?_⟩
      intro s hs
      cases hs
  | openPath _ disk path ih => exact ih.openPath disk path
  | openScratch _ ih =>
      exact ih.of_forall rfl fun P hempty h => forall_add h (Session.all_of_start hempty rfl rfl)
  | @next w _ _ ih =>
      rcases w.exists_next_eq with ⟨i, hi⟩
      rw [hi]
      exact ih
  | @previous w _ _ ih =>
      rcases w.exists_previous_eq with ⟨i, hi⟩
      rw [hi]
      exact ih
  | close _ hv ih => exact ih.of_forall (eq_of_close hv).2 fun P _ h => forall_close h hv
  | write _ _ hv ih =>
      rcases Option.map_eq_some_iff.1 hv with ⟨s, hs, rfl⟩
      exact ih.of_forall rfl fun P _ h =>
        forall_modifyCurrent h fun _ _ _ => (h s (mem_of_current? hs)).save _ _
  | writeAll _ disk ih =>
      exact ih.of_forall rfl fun P _ h =>
        forall_saveEach h (fun s disk hs => hs.save disk none) 0 0 disk
  | select _ set ih =>
      exact ih.of_forall rfl fun P _ h =>
        forall_modifyCurrent h fun s _ hs => ⟨hs.buffer, hs.saved, hs.history⟩
  | edit _ hs he ih => exact ih.applyEdit hs he
  | beginGroup _ ih =>
      exact ih.of_forall rfl fun P _ h => forall_modifyCurrent h fun s _ hs => hs.beginGroup
  | commitGroup _ ih =>
      exact ih.of_forall rfl fun P _ h => forall_modifyCurrent h fun s _ hs => hs.commitGroup
  | undo _ hs ht ih =>
      exact ih.of_forall rfl fun P _ h =>
        forall_modifyCurrent h fun _ _ _ => (h _ (mem_of_current? hs)).undo? ht
  | redo _ hs ht ih =>
      exact ih.of_forall rfl fun P _ h =>
        forall_modifyCurrent h fun _ _ _ => (h _ (mem_of_current? hs)).redo? ht

/-! ## What is stored is what counts as saved -/

/-- The bytes of the versions that count as saved. -/
def savedBytes (w : Workspace) : List Bytes :=
  w.sessions.map fun s => s.saved.toBytes

theorem savedBytes_modifyCurrent {f : Session → Session} {f' : Bytes → Bytes}
    (h : ∀ s, w.current? = some s → (f s).saved.toBytes = f' s.saved.toBytes) :
    (w.modifyCurrent f).savedBytes = w.savedBytes.modify w.current f' := by
  apply List.ext_getElem?
  intro i
  simp only [savedBytes, modifyCurrent, List.getElem?_map, List.getElem?_modify]
  rcases hs : w.sessions[i]? with _ | s
  · rfl
  · by_cases hi : w.current = i
    · rw [← hi] at hs
      simp only [hi, if_true, Option.map_eq_map, Option.map_some, h s hs]
    · simp only [hi, if_false, Option.map_eq_map, Option.map_some]

/-- Steps within the current session that save nothing leave what counts as saved. -/
theorem savedBytes_of_saved_eq {f : Session → Session}
    (h : ∀ s, w.current? = some s → (f s).saved = s.saved) :
    (w.modifyCurrent f).savedBytes = w.savedBytes := by
  have hkept : (w.modifyCurrent f).savedBytes = w.savedBytes.modify w.current id := by
    apply savedBytes_modifyCurrent
    intro s hs
    rw [h s hs]
    rfl
  rw [hkept, List.modify_id]

theorem savedBytes_openPath (w : Workspace) (disk : Disk) (path : Text) :
    (w.openPath disk path).1.savedBytes = w.savedBytes ++ w.loaded disk path := by
  rw [openPath, loaded]
  rcases w.find? disk.directory path with _ | i
  · dsimp only
    split_ifs
    · rcases disk.load path with error | bytes
      · exact (List.append_nil _).symm
      · simp [savedBytes, add, Session.ofFile]
    · exact List.map_append
  · exact (List.append_nil _).symm

theorem map_saved_saveEach (written skipped : Nat) (disk : Disk) (sessions : List Session) :
    (saveEach written skipped disk sessions).1.map (fun s => s.saved.toBytes) =
      storedAfterEach disk sessions (sessions.map fun s => s.saved.toBytes) := by
  induction sessions generalizing written skipped disk with
  | nil => rfl
  | cons s sessions ih =>
      have hsaved := s.toBytes_saved_save disk none
      rw [saveEach, List.map_cons, storedAfterEach]
      rcases s.path with _ | path
      · rw [List.map_cons, ih]
      · rcases hsave : s.save disk none with ⟨next, disk', report⟩
        rw [Session.storedAfterSave, hsave] at hsaved
        cases report with
        | saved path length => simp only [List.map_cons, hsaved, ih]
        | _ => simp only [List.map_cons, hsaved]

/-- In every run the bytes that are stored are those of the versions that count as saved. -/
theorem Run.stored_eq (h : w.Run stored) : stored = w.savedBytes := by
  induction h with
  | empty => rfl
  | openPath _ disk path ih => rw [savedBytes_openPath, ih]
  | @openScratch w _ _ ih =>
      have hadd : w.openScratch.savedBytes = w.savedBytes ++ [[]] := List.map_append
      rw [ih, hadd]
  | @next w _ _ ih =>
      rcases w.exists_next_eq with ⟨i, hi⟩
      rw [hi, ih]
      rfl
  | @previous w _ _ ih =>
      rcases w.exists_previous_eq with ⟨i, hi⟩
      rw [hi, ih]
      rfl
  | close _ hv ih => rw [ih, savedBytes, savedBytes, (eq_of_close hv).1, List.eraseIdx_map]
  | @write w _ s disk path _ _ hs hv ih =>
      rcases Option.map_eq_some_iff.1 hv with ⟨s', hs', rfl⟩
      rw [hs] at hs'
      cases hs'
      rw [ih]
      symm
      apply savedBytes_modifyCurrent
      intro s' hs'
      rw [hs] at hs'
      cases hs'
      exact s.toBytes_saved_save disk path
  | writeAll _ disk ih =>
      rw [ih]
      exact (map_saved_saveEach 0 0 disk _).symm
  | select _ set ih =>
      rw [ih, savedBytes_of_saved_eq]
      intro _ _
      rfl
  | @edit w _ s e _ _ _ ih =>
      have hkept : (w.applyEdit s.snapshot e).savedBytes = w.savedBytes :=
        savedBytes_of_saved_eq fun s' _ => s'.saved_apply _ _
      rw [ih, hkept]
  | beginGroup _ ih =>
      rw [ih, savedBytes_of_saved_eq]
      intro _ _
      rfl
  | commitGroup _ ih =>
      rw [ih, savedBytes_of_saved_eq]
      intro _ _
      rfl
  | undo _ hs ht ih =>
      rw [ih, savedBytes_of_saved_eq]
      intro s' hs'
      rw [hs] at hs'
      cases hs'
      exact Session.saved_undo? ht
  | redo _ hs ht ih =>
      rw [ih, savedBytes_of_saved_eq]
      intro s' hs'
      rw [hs] at hs'
      cases hs'
      exact Session.saved_redo? ht

/-! ## Clean sessions -/

/-- A session that is not dirty holds the bytes that it has last loaded or written. -/
theorem Run.getElem?_stored_of_clean (h : w.Run stored) {i : Nat}
    (hs : w.sessions[i]? = some s) (hclean : s.isDirty = false) :
    stored[i]? = some s.buffer.toBytes := by
  rcases h.filed with ⟨content, hfiled⟩
  have hall := hfiled s (List.mem_of_getElem? hs)
  rw [Session.isDirty, Bool.not_eq_false'] at hclean
  rw [h.stored_eq, savedBytes, List.getElem?_map, hs, Option.map_some,
    hall.buffer.1.toBytes_eq_of_sameVersion hall.saved.1 hclean]

/-- Only a clean session is closed without force. -/
theorem isDirty_of_close (hv : w.close? false = .ok v) (hs : w.current? = some s) :
    s.isDirty = false := by
  rw [close?, hs] at hv
  dsimp only at hv
  split_ifs at hv with hdirty
  simpa using hdirty

/-- In every run, as many byte sequences are stored as there are sessions.

A session that is not dirty holds the bytes that it has last loaded or written.  So closing
without force takes out at most the current session, and only if it holds these bytes.

If the current session is marked as saved while no group is open, and is then edited, by
single edits or in groups that are all closed, it is clean again whenever as many changes
have been left by undoing as there were; and undoing that many is always possible. -/
theorem clean_sessions_are_stored (h : w.Run stored) :
    stored.length = w.sessions.length ∧
    (∀ (i : Nat) (s : Session), w.sessions[i]? = some s → s.isDirty = false →
      stored[i]? = some s.buffer.toBytes) ∧
    (∀ v, w.close? false = .ok v → v.sessions = w.sessions.eraseIdx w.current ∧
      ∀ s, w.current? = some s → stored[w.current]? = some s.buffer.toBytes) ∧
    ∀ s, w.current? = some s → s.history.isGrouping = false →
      ∀ v t, (w.modifyCurrent Session.markSaved).Revised v → v.current? = some t →
        t.history.isGrouping = false →
        (∃ u, t.Undone u ∧ u.history.depth = s.history.depth) ∧
        ∀ u, t.Undone u → u.history.depth = s.history.depth → u.isDirty = false := by
  refine ⟨?_, ?_, ?_, ?_⟩
  · rw [h.stored_eq, savedBytes, List.length_map]
  · intro i s hs hclean
    exact h.getElem?_stored_of_clean hs hclean
  · intro v hv
    refine ⟨(eq_of_close hv).1, ?_⟩
    intro s hs
    exact h.getElem?_stored_of_clean hs (isDirty_of_close hv hs)
  · intro s hs hopened v t hrevised ht hclosed
    rcases h.filed with ⟨content, hfiled⟩
    have hversion := (hfiled s (mem_of_current? hs)).buffer.2
    have hclean : s.markSaved.isDirty = false := by
      rw [Session.isDirty, Bool.not_eq_false']
      exact hversion
    have hmarked : (w.modifyCurrent Session.markSaved).current? = some s.markSaved :=
      current?_modifyCurrent hs _
    have hagain := hrevised.clean_again hmarked hclean
      (Session.isGrouping_eq_false_iff.1 hopened) ht (Session.isGrouping_eq_false_iff.1 hclosed)
    exact hagain

/-- A session without a file, in which one byte has been installed. -/
def withByte : Workspace :=
  (openScratch .empty).applyEdit Session.scratch.snapshot ⟨.ofBytes [7], .start⟩

/-- When that byte has been written to a blank disk, the session is clean and holds what is
stored, and after any other edit it can be undone until it is clean again. -/
theorem clean_sessions_are_stored_byte :
    ∃ v s, withByte.write? .blank (some (ascii "file")) = some v ∧ v.1.Run [[7]] ∧
      v.1.current? = some s ∧ s.isDirty = false ∧ s.buffer.toBytes = [7] ∧
      ∀ e t, ((v.1.modifyCurrent Session.markSaved).applyEdit s.markSaved.snapshot e).current? =
          some t → ∃ u, t.Undone u ∧ u.history.depth = 1 ∧ u.isDirty = false := by
  have hbyte : withByte.Run [[]] := .edit (.openScratch .empty) rfl (.ofBytes [7])
  have hsaved : (withByte.current?.map fun s =>
      s.storedAfterSave .blank (some (ascii "file")) []) = some [7] := by
    decide +kernel
  have hwritten : (withByte.write? .blank (some (ascii "file"))).map (fun v =>
      (v.1.current, v.1.current?.map fun s =>
        (s.isDirty, s.history.isGrouping, s.history.depth))) =
      some (0, some (false, false, 1)) := by
    decide +kernel
  rcases hv : withByte.write? .blank (some (ascii "file")) with _ | v
  · rw [hv] at hwritten
    cases hwritten
  · rcases hr : withByte.current? with _ | r
    · rw [hr] at hsaved
      cases hsaved
    · rw [hr, Option.map_some, Option.some.injEq] at hsaved
      rw [hv, Option.map_some, Option.some.injEq, Prod.mk.injEq] at hwritten
      rcases hwritten with ⟨hcurrent, hsession⟩
      rcases Option.map_eq_some_iff.1 hsession with ⟨s, hs, hstate⟩
      simp only [Prod.mk.injEq] at hstate
      rcases hstate with ⟨hclean, hclosed, hdepth⟩
      have hrun : v.1.Run [[7]] := by
        have hmodified := hbyte.write hr hv
        have hfirst : withByte.current = 0 := rfl
        rw [hfirst, List.modify_zero_cons, hsaved] at hmodified
        exact hmodified
      rcases clean_sessions_are_stored hrun with ⟨-, hheld, -, hagain⟩
      refine ⟨v, s, rfl, hrun, hs, hclean, ?_, ?_⟩
      · have hfirst : v.1.sessions[0]? = some s := by
          rw [← hcurrent]
          exact hs
        exact (Option.some.inj (hheld 0 s hfirst hclean)).symm
      · intro e t ht
        have hmarked : (v.1.modifyCurrent Session.markSaved).current? = some s.markSaved :=
          current?_modifyCurrent hs _
        have hgrouping : t.history.isGrouping = false := by
          have hedited := (current?_modifyCurrent hmarked _).symm.trans ht
          rw [← Option.some.inj hedited, Session.isGrouping_apply]
          exact hclosed
        rcases hagain s hs hclosed _ t (.edit .rest hmarked e) ht hgrouping with
          ⟨⟨u, hu, hback⟩, hundone⟩
        exact ⟨u, hu, hback.trans hdepth, hundone u hu hback⟩

end Workspace

end HexEditor
