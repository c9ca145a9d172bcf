import HexEditor.Edit.Basic
import HexEditor.Proofs.Selection.Refine
import HexEditor.Proofs.Session.Valid
import Mathlib.Logic.Relation

/-!
# What can happen to the open sessions

Whatever keys and commands do to the open sessions is a sequence of moves: selections
are replaced, an edit is installed, changes are grouped, undone or made again, and
sessions are opened, chosen, saved and closed.  What every move keeps, every key keeps.

Main results:

- Definitions `Session.Offers` and `Session.Edits`: the selections that can take the
  place of those of a session, and the edits that can be installed in it.
- Definitions `Workspace.Move` and `Workspace.Moves`: one move, and a sequence of moves.
- Definition `Workspace.Opened`: the sessions an editor begins with.
- Theorems `Workspace.Valid.move` and `Workspace.Valid.moves`: moves keep all sessions
  valid.
-/

namespace HexEditor

namespace Session

/-! ## Replacing selections -/

/-- The sets of selections that can take the place of those of a session. -/
inductive Offers (s : Session) : SelectionSet → Prop where
  | moveCursors (target : Nat → Nat) (extend : Bool) :
      s.Offers (s.selections.moveCursors target extend s.buffer.length)
  | collapse : s.Offers s.selections.collapse
  | swapEnds : s.Offers s.selections.swapEnds
  | all : s.Offers (.all s.buffer.length)
  | keep (index : Nat) : s.Offers (s.selections.keep index)
  | drop {index : Nat} {set : SelectionSet} (h : s.selections.drop? index = .ok set) :
      s.Offers set
  | cycleForward (steps : Nat) : s.Offers (s.selections.cycleForward steps)
  | cycleBackward (steps : Nat) : s.Offers (s.selections.cycleBackward steps)
  | splitWidth (width : Nat) : s.Offers (s.selections.splitWidth width)
  | splitNull {run : Nat} {set : SelectionSet}
      (h : s.selections.splitNull? run s.buffer = .ok set) : s.Offers set
  | splitPattern {pattern : Pattern} {set : SelectionSet}
      (h : s.selections.splitPattern? pattern s.buffer = .ok set) : s.Offers set
  | selectMatching {pattern : Pattern} {ranges : List Range} {set : SelectionSet}
      (h : s.selections.selectMatching? pattern s.buffer ranges = .ok set) : s.Offers set

/-- Selections that take the place of valid ones are valid. -/
theorem Valid.offers {s : Session} {set : SelectionSet} (h : s.Valid) (hset : s.Offers set) :
    set.Valid s.buffer.length := by
  have hsound : s.buffer.Sound := h.snapshot.sound
  have hvalid : s.selections.Valid s.buffer.length := h.snapshot.selections
  cases hset with
  | moveCursors target extend => exact SelectionSet.valid_moveCursors _ _ _ _
  | collapse => exact hvalid.collapse
  | swapEnds => exact hvalid.swapEnds
  | all => exact SelectionSet.valid_all _
  | keep index => exact hvalid.keep index
  | drop hok => exact hvalid.drop? hok
  | cycleForward steps => exact hvalid.cycleForward steps
  | cycleBackward steps => exact hvalid.cycleBackward steps
  | splitWidth width => exact hvalid.splitWidth width
  | splitNull hok => exact hvalid.splitNull? hsound hok
  | splitPattern hok => exact SelectionSet.valid_splitPattern? hsound hok
  | selectMatching hok => exact SelectionSet.valid_selectMatching? hsound hok

/-! ## Editing -/

/-- The edits that can be installed in a session. -/
inductive Edits (s : Session) : Edited → Prop where
  | delete {e : Edited} (h : s.buffer.delete s.selections = .ok e) : s.Edits e
  | insert {bytes : Bytes} {side : Side} {e : Edited}
      (h : s.buffer.insert s.selections bytes side = .ok e) : s.Edits e
  | paste {entries : List Bytes} {side : Side} {count : Nat} {e : Edited}
      (h : s.buffer.paste s.selections entries side count = .ok e) : s.Edits e
  | overwrite {byte : UInt8} {e : Edited}
      (h : s.buffer.overwrite s.selections byte = .ok e) : s.Edits e
  | eraseBefore {side : Side} {e : Edited}
      (h : s.buffer.eraseBefore s.selections side = .ok e) : s.Edits e
  | eraseAt {side : Side} {e : Edited} (h : s.buffer.eraseAt s.selections side = .ok e) :
      s.Edits e

/-- The version that an edit leads to is made by splicing the one of the session. -/
theorem Edits.exists_spliceAll {s : Session} {e : Edited} (he : s.Edits e) :
    ∃ edits, s.buffer.spliceAll edits = .ok e.buffer := by
  have hsplices : ∀ {edit : Selection → Nat → LocalEdit},
      s.buffer.applyEdits s.selections edit = .ok e →
        ∃ edits, s.buffer.spliceAll edits = .ok e.buffer := by
    intro edit hok
    rcases Rope.of_applyEdits_ok hok with ⟨edits, -, hspliced, -⟩
    exact ⟨edits, hspliced⟩
  cases he with
  | delete hok => exact hsplices hok
  | insert hok => exact hsplices hok
  | paste hok =>
      rw [Rope.paste] at hok
      split_ifs at hok
      · cases hok
        exact ⟨[], rfl⟩
      · exact hsplices hok
  | overwrite hok => exact hsplices hok
  | eraseBefore hok => exact hsplices hok
  | eraseAt hok => exact hsplices hok

/-- An edit of a valid session leads to a sound version and to selections that are valid
for it. -/
theorem Valid.edits {s : Session} {e : Edited} (h : s.Valid) (he : s.Edits e) : e.Valid := by
  have hsound : s.buffer.Sound := h.snapshot.sound
  cases he with
  | delete hok => exact Rope.valid_applyEdits hsound hok
  | insert hok => exact Rope.valid_applyEdits hsound hok
  | paste hok =>
      rw [Rope.paste] at hok
      split_ifs at hok
      · cases hok
        exact ⟨hsound, h.snapshot.selections⟩
      · exact Rope.valid_applyEdits hsound hok
  | overwrite hok => exact Rope.valid_applyEdits hsound hok
  | eraseBefore hok => exact Rope.valid_applyEdits hsound hok
  | eraseAt hok => exact Rope.valid_applyEdits hsound hok

end Session

namespace Workspace

/-! ## Moves -/

/-- What a single move does to the open sessions of an editor that works in the given
directory. -/
inductive Move (directory : Location) (w : Workspace) : Workspace → Prop where
  | select {s : Session} {set : SelectionSet} (hs : w.current? = some s)
      (hset : s.Offers set) :
      Move directory w (w.modifyCurrent fun s => { s with selections := set })
  | beginGroup : Move directory w (w.modifyCurrent Session.beginGroup)
  | commitGroup : Move directory w (w.modifyCurrent Session.commitGroup)
  | edit {s : Session} {e : Edited} (hs : w.current? = some s) (he : s.Edits e) :
      Move directory w (w.applyEdit s.snapshot e)
  | undo {s t : Session} {count : Nat} (hs : w.current? = some s)
      (ht : s.undo? count = some t) : Move directory w (w.modifyCurrent fun _ => t)
  | redo {s t : Session} {count : Nat} (hs : w.current? = some s)
      (ht : s.redo? count = some t) : Move directory w (w.modifyCurrent fun _ => t)
  | openPath (disk : Disk) (hdisk : disk.directory = directory) (path : Text) :
      Move directory w (w.openPath disk path).1
  | openScratch : Move directory w w.openScratch
  | close {force : Bool} {v : Workspace} (hv : w.close? force = .ok v) : Move directory w v
  | next : Move directory w w.next
  | previous : Move directory w w.previous
  | write {disk : Disk} {path : Option Text} {v : Workspace × Disk × FileReport}
      (hv : w.write? disk path = some v) : Move directory w v.1
  | writeAll (disk : Disk) : Move directory w (w.writeAll disk).1

/-- A sequence of moves. -/
def Moves (directory : Location) : Workspace → Workspace → Prop :=
  Relation.ReflTransGen (Move directory)

/-- The sessions that an editor in the given directory begins with: those that opening
any paths one after the other leads to. -/
inductive Opened (directory : Location) : Workspace → Prop where
  /-- No session is open. -/
  | empty : Opened directory .empty
  /-- One more path is opened. -/
  | openPath {w : Workspace} (opened : Opened directory w) (disk : Disk)
      (hdisk : disk.directory = directory) (path : Text) :
      Opened directory (w.openPath disk path).1

theorem Opened.moves {directory : Location} {w : Workspace} (h : Opened directory w) :
    Moves directory .empty w := by
  induction h with
  | empty => exact .refl
  | openPath _ disk hdisk path ih => exact ih.tail (.openPath disk hdisk path)

/-! ## All sessions -/

section Forall

variable {w v : Workspace} {s : Session} {P : Session → Prop}

theorem mem_of_current? (hs : w.current? = some s) : s ∈ w.sessions :=
  List.mem_of_getElem? hs

theorem current?_modifyCurrent (hs : w.current? = some s) (f : Session → Session) :
    (w.modifyCurrent f).current? = some (f s) := by
  rw [current?] at hs
  rw [current?, modifyCurrent, List.getElem?_modify_eq, hs]
  rfl

/-- Changing the current session leaves the others. -/
theorem forall_modifyCurrent (h : ∀ s ∈ w.sessions, P s) {f : Session → Session}
    (hf : ∀ s, w.current? = some s → P s → P (f s)) :
    ∀ s ∈ (w.modifyCurrent f).sessions, P s := by
  intro s hs
  rcases List.getElem?_of_mem hs with ⟨i, hi⟩
  rw [modifyCurrent, List.getElem?_modify] at hi
  rcases Option.map_eq_some_iff.1 hi with ⟨t, ht, hft⟩
  split_ifs at hft with hcurrent
  · rw [← hcurrent] at ht
    rw [← hft]
    exact hf t ht (h t (mem_of_current? ht))
  · rw [← hft]
    exact h t (List.mem_of_getElem? ht)

theorem forall_add (h : ∀ s ∈ w.sessions, P s) (hs : P s) : ∀ t ∈ (w.add s).sessions, P t := by
  intro t ht
  rcases List.mem_append.1 ht with ht | ht
  · exact h t ht
  · rw [List.mem_singleton.1 ht]
    exact hs

theorem forall_openPath (h : ∀ s ∈ w.sessions, P s)
    (hloaded : ∀ path bytes, P (.ofFile path ((Rope.ofBytes bytes).complete w.nextVersion)))
    (hnew : ∀ path, P (.ofFile path .empty)) (disk : Disk) (path : Text) :
    ∀ s ∈ (w.openPath disk path).1.sessions, P s := by
  rw [openPath]
  split
  · exact h
  · split_ifs
    · split
      · exact h
      · apply forall_add
        · exact h
        · exact hloaded path _
    · exact forall_add h (hnew path)

/-- Closing takes the current session out, if there is one. -/
theorem eq_of_close {force : Bool} (hv : w.close? force = .ok v) :
    v.sessions = w.sessions.eraseIdx w.current ∧ v.nextVersion = w.nextVersion := by
  rw [close?] at hv
  split at hv
  · rename_i hnone
    cases hv
    rw [List.eraseIdx_of_length_le (List.getElem?_eq_none_iff.1 hnone)]
    exact ⟨rfl, rfl⟩
  · split_ifs at hv
    cases hv
    exact ⟨rfl, rfl⟩

theorem forall_close (h : ∀ s ∈ w.sessions, P s) {force : Bool}
    (hv : w.close? force = .ok v) : ∀ s ∈ v.sessions, P s := by
  intro s hs
  rw [(eq_of_close hv).1] at hs
  exact h s (List.mem_of_mem_eraseIdx hs)

/-- Going to another session changes nothing but which one is current. -/
theorem exists_next_eq (w : Workspace) : ∃ i, w.next = { w with current := i } := by
  rw [next]
  split_ifs
  · exact ⟨w.current, rfl⟩
  · exact ⟨_, rfl⟩

theorem exists_previous_eq (w : Workspace) : ∃ i, w.previous = { w with current := i } := by
  rw [previous]
  split_ifs
  · exact ⟨w.current, rfl⟩
  · exact ⟨_, rfl⟩

theorem forall_saveEach {sessions : List Session} (h : ∀ s ∈ sessions, P s)
    (hsave : ∀ (s : Session) (disk : Disk), P s → P (s.save disk none).1)
    (written skipped : Nat) (disk : Disk) :
    ∀ s ∈ (saveEach written skipped disk sessions).1, P s := by
  induction sessions generalizing written skipped disk with
  | nil => exact h
  | cons s sessions ih =>
      have hs := h s List.mem_cons_self
      have hrest : ∀ t ∈ sessions, P t := fun t ht => h t (List.mem_cons_of_mem _ ht)
      rw [Workspace.saveEach]
      split
      · exact List.forall_mem_cons.2 ⟨hs, ih hrest _ _ _⟩
      · have hsaved := hsave s disk hs
        split
        · rename_i heq
          rw [heq] at hsaved
          exact List.forall_mem_cons.2 ⟨hsaved, ih hrest _ _ _⟩
        · rename_i heq
          rw [heq] at hsaved
          exact List.forall_mem_cons.2 ⟨hsaved, hrest⟩

end Forall

/-! ## Validity -/

/-- All sessions are valid. -/
def Valid (w : Workspace) : Prop :=
  ∀ s ∈ w.sessions, s.Valid

variable {directory : Location} {w v : Workspace}

theorem valid_empty : Valid .empty := by
  intro s hs
  cases hs

/-- A move keeps all sessions valid. -/
theorem Valid.move (h : w.Valid) (hmove : Move directory w v) : v.Valid := by
  have hempty : ∀ path, (Session.ofFile path .empty).Valid :=
    fun path => Session.valid_of_start Rope.sound_empty rfl rfl
  cases hmove with
  | select hs hset =>
      apply forall_modifyCurrent h
      intro s' hs' hvalid
      rw [hs] at hs'
      cases hs'
      exact ⟨⟨hvalid.snapshot.sound, hvalid.offers hset⟩, hvalid.history⟩
  | beginGroup => exact forall_modifyCurrent h fun s _ hvalid => hvalid.beginGroup
  | commitGroup => exact forall_modifyCurrent h fun s _ hvalid => hvalid.commitGroup
  | edit hs he =>
      have hcurrent := h _ (mem_of_current? hs)
      have hedited := hcurrent.edits he
      apply forall_modifyCurrent h
      intro s' _ hvalid
      exact hvalid.apply hcurrent.snapshot ⟨hedited.sound.complete _, by
        rw [Rope.length_complete]
        exact hedited.selections⟩
  | undo hs ht => exact forall_modifyCurrent h fun _ _ _ => (h _ (mem_of_current? hs)).undo? ht
  | redo hs ht => exact forall_modifyCurrent h fun _ _ _ => (h _ (mem_of_current? hs)).redo? ht
  | openPath disk _ path =>
      apply forall_openPath h _ hempty
      intro path bytes
      exact Session.valid_of_start ((Rope.sound_ofBytes bytes).complete _) rfl rfl
  | openScratch => exact forall_add h (Session.valid_of_start Rope.sound_empty rfl rfl)
  | close hv => exact forall_close h hv
  | next =>
      rcases w.exists_next_eq with ⟨i, hi⟩
      rw [hi]
      exact h
  | previous =>
      rcases w.exists_previous_eq with ⟨i, hi⟩
      rw [hi]
      exact h
  | write hv =>
      rcases Option.map_eq_some_iff.1 hv with ⟨s, hs, rfl⟩
      exact forall_modifyCurrent h fun _ _ _ => (h s (mem_of_current? hs)).save _ _
  | writeAll disk => exact forall_saveEach h (fun s disk hs => hs.save disk none) 0 0 disk

/-- Any number of moves keep all sessions valid. -/
theorem Valid.moves (h : w.Valid) (hmoves : Moves directory w v) : v.Valid := by
  induction hmoves with
  | refl => exact h
  | tail _ hmove ih => exact ih.move hmove

end Workspace

end HexEditor
