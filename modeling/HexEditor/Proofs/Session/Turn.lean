import HexEditor.Proofs.Session.Moves

/-!
# What one key does to the open sessions

A key, or a command line, does one thing to the open sessions.  Which things are possible
depends on whether the editor is inserting or replacing: while it is, keys move, edit and at
last close the group of changes; otherwise they may open a group, undo, or go to another
session.  So a group is open only where bytes are being typed.

Main results:

- Definition `Trip`: a number of changes to be undone or made again.
- Definition `Workspace.Turn`: what one key or command line can do, and whether the editor
  is inserting or replacing before and after.
- Theorem `Workspace.Turn.moves`: a turn is a sequence of moves.
- Definition `Workspace.Grouped` and theorem `Workspace.Grouped.turn`: a group is open in the
  current session exactly while the editor inserts or replaces, and in no other session.
-/

namespace HexEditor

/-- A trip along the history of a session. -/
inductive Trip where
  /-- So many changes are undone, or as many as there are. -/
  | back (count : Nat)
  /-- So many changes are made again, or as many as there are. -/
  | forth (count : Nat)

namespace Session

variable {s t : Session}

/-- Opening a group changes neither the version nor the selections, so the same edits can
be installed. -/
theorem Edits.beginGroup {e : Edited} (he : s.Edits e) : s.beginGroup.Edits e := by
  cases he with
  | delete h => exact .delete h
  | insert h => exact .insert h
  | paste h => exact .paste h
  | overwrite h => exact .overwrite h
  | eraseBefore h => exact .eraseBefore h
  | eraseAt h => exact .eraseAt h

/-! ## Open groups -/

theorem isGrouping_eq_false_iff : s.history.isGrouping = false ↔ s.history.opened = none := by
  rw [History.isGrouping, Option.isSome_eq_false_iff, Option.isNone_iff_eq_none]

theorem isGrouping_beginGroup (s : Session) : s.beginGroup.history.isGrouping = true := by
  rw [beginGroup, History.beginGroup]
  split
  · rename_i before hopened
    simp only [History.isGrouping, hopened, Option.isSome_some]
  · rfl

theorem isGrouping_commitGroup (h : History) (after : Snapshot) :
    (h.commitGroup after).isGrouping = false := by
  rw [History.commitGroup]
  split
  · rename_i hopened
    simp only [History.isGrouping, hopened, Option.isSome_none]
  · split_ifs
    · rfl
    · rfl

/-- Installing an edit neither opens a group nor closes one. -/
theorem isGrouping_apply (s : Session) (before : Snapshot) (edited : Edited) :
    (s.apply before edited).history.isGrouping = s.history.isGrouping := by
  simp only [apply]
  split_ifs with hgrouping
  · rfl
  · rw [Bool.eq_false_iff.2 hgrouping]
    exact isGrouping_commitGroup _ _

theorem opened_undoSteps (history : History) (current : Snapshot) (count : Nat) :
    (undoSteps history current count).2.1.opened = history.opened := by
  induction count generalizing history current with
  | zero => rfl
  | succ count ih =>
      rw [undoSteps]
      rcases history with ⟨_ | ⟨change, done⟩, undone, opened⟩
      · rfl
      · exact ih _ _

theorem opened_redoSteps (history : History) (current : Snapshot) (count : Nat) :
    (redoSteps history current count).2.1.opened = history.opened := by
  induction count generalizing history current with
  | zero => rfl
  | succ count ih =>
      rw [redoSteps]
      rcases history with ⟨done, _ | ⟨change, undone⟩, opened⟩
      · rfl
      · exact ih _ _

theorem opened_undo? {count : Nat} (h : s.undo? count = some t) :
    t.history.opened = s.history.opened := by
  simp only [undo?, Option.ite_none_left_eq_some, Option.some.injEq] at h
  rw [← h.2]
  exact opened_undoSteps _ _ _

theorem opened_redo? {count : Nat} (h : s.redo? count = some t) :
    t.history.opened = s.history.opened := by
  simp only [redo?, Option.ite_none_left_eq_some, Option.some.injEq] at h
  rw [← h.2]
  exact opened_redoSteps _ _ _

end Session

namespace Workspace

variable {directory : Location} {trips : Trip → Prop} {w v : Workspace}
  {editing editing' : Bool}

/-! ## Turns -/

/-- What one key or one command line does to the open sessions of an editor that works in
the given directory, if it may make the given trips.  The flags say whether the editor is
inserting or replacing, before and after. -/
inductive Turn (directory : Location) (trips : Trip → Prop) (w : Workspace) :
    Bool → Workspace → Bool → Prop where
  /-- The sessions stay as they are. -/
  | rest (editing : Bool) : Turn directory trips w editing w editing
  /-- The selections of the current session are replaced. -/
  | select (editing : Bool) {s : Session} {set : SelectionSet} (hs : w.current? = some s)
      (hset : s.Offers set) :
      Turn directory trips w editing (w.modifyCurrent fun s => { s with selections := set }) editing
  /-- An edit is installed. -/
  | edit (editing : Bool) {s : Session} {e : Edited} (hs : w.current? = some s)
      (he : s.Edits e) : Turn directory trips w editing (w.applyEdit s.snapshot e) editing
  /-- A group is opened. -/
  | beginGroup : Turn directory trips w false (w.modifyCurrent Session.beginGroup) true
  /-- A group is opened and begins with an edit. -/
  | change {s : Session} {e : Edited} (hs : w.current? = some s) (he : s.Edits e) :
      Turn directory trips w false
        ((w.modifyCurrent Session.beginGroup).applyEdit s.snapshot e) true
  /-- The group is closed. -/
  | commitGroup : Turn directory trips w true (w.modifyCurrent Session.commitGroup) false
  /-- The group ends with an edit and is closed. -/
  | finish {s : Session} {e : Edited} (hs : w.current? = some s) (he : s.Edits e) :
      Turn directory trips w true
        ((w.applyEdit s.snapshot e).modifyCurrent Session.commitGroup) false
  /-- Changes are undone. -/
  | undo {s t : Session} {count : Nat} (htrip : trips (.back count))
      (hs : w.current? = some s) (ht : s.undo? count = some t) :
      Turn directory trips w false (w.modifyCurrent fun _ => t) false
  /-- Changes are made again. -/
  | redo {s t : Session} {count : Nat} (htrip : trips (.forth count))
      (hs : w.current? = some s) (ht : s.redo? count = some t) :
      Turn directory trips w false (w.modifyCurrent fun _ => t) false
  /-- A path is opened. -/
  | openPath (disk : Disk) (hdisk : disk.directory = directory) (path : Text) :
      Turn directory trips w false (w.openPath disk path).1 false
  /-- The current session is closed. -/
  | close {force : Bool} {v : Workspace} (hv : w.close? force = .ok v) :
      Turn directory trips w false v false
  /-- The next session becomes the current one. -/
  | next : Turn directory trips w false w.next false
  /-- The previous session becomes the current one. -/
  | previous : Turn directory trips w false w.previous false
  /-- The current session is saved. -/
  | write {disk : Disk} {path : Option Text} {v : Workspace × Disk × FileReport}
      (hv : w.write? disk path = some v) : Turn directory trips w false v.1 false
  /-- All sessions are saved. -/
  | writeAll (disk : Disk) : Turn directory trips w false (w.writeAll disk).1 false
  /-- The current session is saved and closed. -/
  | writeAndClose {disk : Disk} {path : Option Text} {force : Bool}
      {v : Workspace × Disk × FileReport} {u : Workspace}
      (hv : w.write? disk path = some v) (hu : v.1.close? force = .ok u) :
      Turn directory trips w false u false

/-- A turn is a sequence of moves. -/
theorem Turn.moves (h : Turn directory trips w editing v editing') : Moves directory w v := by
  cases h with
  | rest => exact .refl
  | select _ hs hset => exact .single (.select hs hset)
  | edit _ hs he => exact .single (.edit hs he)
  | beginGroup => exact .single .beginGroup
  | @change s e hs he =>
      have hedit : Move directory (w.modifyCurrent Session.beginGroup)
          ((w.modifyCurrent Session.beginGroup).applyEdit s.beginGroup.snapshot e) :=
        .edit (current?_modifyCurrent hs Session.beginGroup) he.beginGroup
      exact .tail (.single .beginGroup) hedit
  | commitGroup => exact .single .commitGroup
  | finish hs he => exact .tail (.single (.edit hs he)) .commitGroup
  | undo _ hs ht => exact .single (.undo hs ht)
  | redo _ hs ht => exact .single (.redo hs ht)
  | openPath disk hdisk path => exact .single (.openPath disk hdisk path)
  | close hv => exact .single (.close hv)
  | next => exact .single .next
  | previous => exact .single .previous
  | write hv => exact .single (.write hv)
  | writeAll disk => exact .single (.writeAll disk)
  | writeAndClose hv hu => exact .tail (.single (.write hv)) (.close hu)

/-! ## Where groups are open -/

/-- A group is open in the current session if the editor is inserting or replacing, and in
no other session. -/
def Grouped (w : Workspace) (editing : Bool) : Prop :=
  ∀ i s, w.sessions[i]? = some s →
    (s.history.isGrouping = true ↔ i = w.current ∧ editing = true)

theorem grouped_false_iff :
    w.Grouped false ↔ ∀ s ∈ w.sessions, s.history.isGrouping = false := by
  constructor
  · intro h s hs
    rcases List.getElem?_of_mem hs with ⟨i, hi⟩
    simpa using h i s hi
  · intro h i s hi
    simpa using h s (List.mem_of_getElem? hi)

theorem Grouped.isGrouping_eq (h : w.Grouped editing) {s : Session}
    (hs : w.current? = some s) : s.history.isGrouping = editing := by
  have hcurrent := h w.current s hs
  cases editing
  · simpa using hcurrent
  · simpa using hcurrent

/-- Changing the current session leaves the groups of the others. -/
theorem Grouped.modifyCurrent (h : w.Grouped editing) {f : Session → Session}
    (hf : ∀ s, w.current? = some s → (f s).history.isGrouping = editing') :
    (w.modifyCurrent f).Grouped editing' := by
  intro i t hi
  rw [Workspace.modifyCurrent, List.getElem?_modify] at hi
  rcases Option.map_eq_some_iff.1 hi with ⟨s, hs, ht⟩
  by_cases hcurrent : w.current = i
  · rw [if_pos hcurrent] at ht
    rw [← hcurrent] at hs
    have hgrouping := hf s hs
    rw [ht] at hgrouping
    rw [hgrouping]
    exact ⟨fun hediting => ⟨hcurrent.symm, hediting⟩, fun hediting => hediting.2⟩
  · rw [if_neg hcurrent] at ht
    have hgrouping := h i s hs
    rw [ht] at hgrouping
    rw [hgrouping]
    exact ⟨fun hi => absurd hi.1.symm hcurrent, fun hi => absurd hi.1.symm hcurrent⟩

theorem Grouped.applyEdit (h : w.Grouped editing) (before : Snapshot) (edited : Edited) :
    (w.applyEdit before edited).Grouped editing := by
  have hmodified : (w.modifyCurrent (·.apply before
      { edited with buffer := edited.buffer.complete w.nextVersion })).Grouped editing := by
    apply h.modifyCurrent
    intro s hs
    rw [Session.isGrouping_apply]
    exact h.isGrouping_eq hs
  exact hmodified

/-- A session that is added has no group open, and neither have the others while no bytes
are being typed. -/
theorem Grouped.add (h : w.Grouped false) {s : Session} (hs : s.history.isGrouping = false) :
    (w.add s).Grouped false := by
  rw [grouped_false_iff] at h ⊢
  exact forall_add h hs

theorem Grouped.openScratch (h : w.Grouped false) : w.openScratch.Grouped false :=
  h.add rfl

theorem Grouped.openPath (h : w.Grouped false) (disk : Disk) (path : Text) :
    (w.openPath disk path).1.Grouped false := by
  rw [grouped_false_iff] at h ⊢
  exact forall_openPath h (fun _ _ => rfl) (fun _ => rfl) disk path

theorem Grouped.close (h : w.Grouped false) {force : Bool} (hv : w.close? force = .ok v) :
    v.Grouped false := by
  rw [grouped_false_iff] at h ⊢
  exact forall_close h hv

theorem Grouped.write (h : w.Grouped editing) {disk : Disk} {path : Option Text}
    {v : Workspace × Disk × FileReport} (hv : w.write? disk path = some v) :
    v.1.Grouped editing := by
  rcases Option.map_eq_some_iff.1 hv with ⟨s, hs, rfl⟩
  apply h.modifyCurrent
  intro _ _
  rw [(s.save_frame disk path).2]
  exact h.isGrouping_eq hs

/-- A turn keeps groups open where bytes are being typed, and nowhere else. -/
theorem Grouped.turn (h : w.Grouped editing) (hturn : Turn directory trips w editing v editing') :
    v.Grouped editing' := by
  cases hturn with
  | rest => exact h
  | select _ hs hset =>
      apply h.modifyCurrent
      intro s hs
      have hgrouping := h.isGrouping_eq hs
      exact hgrouping
  | edit _ hs he => exact h.applyEdit _ _
  | beginGroup => exact h.modifyCurrent fun s _ => s.isGrouping_beginGroup
  | change hs he =>
      apply Grouped.applyEdit
      exact h.modifyCurrent fun s _ => s.isGrouping_beginGroup
  | commitGroup => exact h.modifyCurrent fun s _ => Session.isGrouping_commitGroup _ _
  | finish hs he =>
      exact (h.applyEdit _ _).modifyCurrent fun s _ => Session.isGrouping_commitGroup _ _
  | undo _ hs ht =>
      apply h.modifyCurrent
      intro _ _
      rw [History.isGrouping, Session.opened_undo? ht]
      exact h.isGrouping_eq hs
  | redo _ hs ht =>
      apply h.modifyCurrent
      intro _ _
      rw [History.isGrouping, Session.opened_redo? ht]
      exact h.isGrouping_eq hs
  | openPath disk _ path => exact h.openPath disk path
  | close hv => exact h.close hv
  | next =>
      rw [grouped_false_iff] at h ⊢
      rcases w.exists_next_eq with ⟨i, hi⟩
      rw [hi]
      exact h
  | previous =>
      rw [grouped_false_iff] at h ⊢
      rcases w.exists_previous_eq with ⟨i, hi⟩
      rw [hi]
      exact h
  | write hv => exact h.write hv
  | writeAll disk =>
      rw [grouped_false_iff] at h ⊢
      refine forall_saveEach h ?_ 0 0 disk
      intro s disk hs
      rw [(s.save_frame disk none).2]
      exact hs
  | writeAndClose hv hu => exact (h.write hv).close hu

end Workspace

end HexEditor
