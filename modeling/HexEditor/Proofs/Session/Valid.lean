import HexEditor.Session.Workspace
import HexEditor.Proofs.Rope.Version
import HexEditor.Proofs.Selection.Valid

/-!
# Valid sessions

A session is valid if the tree of its version is sound, its selections are valid for
the length of that version, and the same holds of every snapshot in its history.
Edits, groups, undoing, making again and saving keep a session valid.

Main results:

- Definitions `Edited.Valid`, `Snapshot.Valid` and `Session.Valid`.
- Theorem `Rope.valid_applyEdits`: an edit leads to a sound version and to selections
  that are valid for it.
- Definition `History.All` and the theorems about it: what holds of all snapshots of a
  history.
- Theorems `Session.Valid.apply`, `Session.Valid.undo?`, `Session.Valid.redo?` and
  `Session.Valid.save`.
-/

namespace HexEditor

/-! ## Edits -/

/-- The version is sound and the selections are valid for it. -/
structure Edited.Valid (e : Edited) : Prop where
  sound : e.buffer.Sound
  selections : e.selections.Valid e.buffer.length

namespace Rope

variable {rope : Rope} {set : SelectionSet}

/-- What every splice keeps, splicing in several places keeps. -/
theorem spliceAll_induction {P : Rope → Prop}
    (hsplice : ∀ {r s : Rope} {range : Range} {replacement : Bytes}, P r →
      r.splice range replacement = .ok s → P s) {next : Rope} {edits : List LocalEdit}
    (h : P rope) (hok : rope.spliceAll edits = .ok next) : P next := by
  induction edits generalizing next with
  | nil =>
      cases hok
      exact h
  | cons e edits ih =>
      rw [spliceAll, List.foldrM_cons] at hok
      rcases hrest : rope.spliceAll edits with error | rest
      · rw [spliceAll] at hrest
        rw [hrest] at hok
        cases hok
      · have hkept := ih hrest
        rw [spliceAll] at hrest
        rw [hrest] at hok
        change (if e.isIdle then .ok rest else rest.splice e.range e.replacement) =
          Except.ok next at hok
        split_ifs at hok with hidle
        · cases hok
          exact hkept
        · exact hsplice hkept hok

/-- An edit splices in several places and moves the selections back to the end of the version
that this leads to. -/
theorem of_applyEdits_ok {edit : Selection → Nat → LocalEdit} {edited : Edited}
    (hok : rope.applyEdits set edit = .ok edited) :
    ∃ edits selections, rope.spliceAll edits = .ok edited.buffer ∧
      edited.selections = SelectionSet.clamped selections edited.buffer.length := by
  simp only [applyEdits, bind, Except.bind, pure, Except.pure] at hok
  split at hok
  · cases hok
  · rename_i next hnext
    cases hok
    exact ⟨_, _, hnext, rfl⟩

theorem Sound.of_splice_ok {next : Rope} {range : Range} {replacement : Bytes}
    (h : rope.Sound) (hok : rope.splice range replacement = .ok next) : next.Sound := by
  rcases h.splice (holds_of_splice_ok hok) replacement with ⟨s, hs, hsound, -⟩
  rw [hok] at hs
  cases hs
  exact hsound

/-- Whatever the local edits are, the selections are moved back to the end of the
version that they lead to. -/
theorem valid_applyEdits {edit : Selection → Nat → LocalEdit} {edited : Edited}
    (h : rope.Sound) (hok : rope.applyEdits set edit = .ok edited) : edited.Valid := by
  rcases of_applyEdits_ok hok with ⟨edits, selections, hspliced, hselections⟩
  refine ⟨spliceAll_induction (fun hsound => hsound.of_splice_ok) h hspliced, ?_⟩
  rw [hselections]
  exact SelectionSet.valid_clamped _ _

end Rope

/-! ## Snapshots and histories -/

/-- The version is sound and the selections are valid for it. -/
structure Snapshot.Valid (p : Snapshot) : Prop where
  sound : p.buffer.Sound
  selections : p.selections.Valid p.buffer.length

/-- All snapshots of a history have a property. -/
structure History.All (P : Snapshot → Prop) (h : History) : Prop where
  done : ∀ change ∈ h.done, P change.before ∧ P change.after
  undone : ∀ change ∈ h.undone, P change.before ∧ P change.after
  opened : ∀ before ∈ h.opened, P before

namespace History

variable {P : Snapshot → Prop} {h : History}

theorem all_empty (P : Snapshot → Prop) : empty.All P := by
  refine ⟨?_, ?_, ?_⟩ <;> simp [empty]

theorem All.beginGroup (hall : h.All P) {before : Snapshot} (hbefore : P before) :
    (h.beginGroup before).All P := by
  rw [History.beginGroup]
  split
  · exact hall
  · refine ⟨hall.done, hall.undone, ?_⟩
    simpa using hbefore

theorem All.commitGroup (hall : h.All P) {after : Snapshot} (hafter : P after) :
    (h.commitGroup after).All P := by
  rw [History.commitGroup]
  split
  · exact hall
  · rename_i before hopened
    have hbefore : P before := hall.opened before hopened
    split_ifs
    · exact ⟨hall.done, hall.undone, by simp⟩
    · refine ⟨?_, by simp, by simp⟩
      intro change hchange
      rcases List.mem_cons.1 hchange with rfl | hchange
      · exact ⟨hbefore, hafter⟩
      · exact hall.done change hchange

theorem All.record (hall : h.All P) {before after : Snapshot} (hbefore : P before)
    (hafter : P after) : (h.record before after).All P :=
  (hall.beginGroup hbefore).commitGroup hafter

theorem All.undo? (hall : h.All P) {p : Snapshot} {rest : History}
    (hundo : h.undo? = some (p, rest)) : P p ∧ rest.All P := by
  rcases h with ⟨_ | ⟨change, done⟩, undone, opened⟩
  · cases hundo
  · cases hundo
    have hchange := hall.done change List.mem_cons_self
    refine ⟨hchange.1, fun c hc => hall.done c (List.mem_cons_of_mem _ hc), ?_, hall.opened⟩
    intro c hc
    rcases List.mem_cons.1 hc with rfl | hc
    · exact hchange
    · exact hall.undone c hc

theorem All.redo? (hall : h.All P) {p : Snapshot} {rest : History}
    (hredo : h.redo? = some (p, rest)) : P p ∧ rest.All P := by
  rcases h with ⟨done, _ | ⟨change, undone⟩, opened⟩
  · cases hredo
  · cases hredo
    have hchange := hall.undone change List.mem_cons_self
    refine ⟨hchange.2, ?_, fun c hc => hall.undone c (List.mem_cons_of_mem _ hc), hall.opened⟩
    intro c hc
    rcases List.mem_cons.1 hc with rfl | hc
    · exact hchange
    · exact hall.done c hc

end History

/-! ## Sessions -/

/-- The version, the selections and all snapshots in the history are valid. -/
structure Session.Valid (s : Session) : Prop where
  snapshot : s.snapshot.Valid
  history : s.history.All Snapshot.Valid

namespace Session

variable {s t : Session}

/-- A session that has just begun on a sound version. -/
theorem valid_of_start (hsound : s.buffer.Sound) (hstart : s.selections = .start)
    (hempty : s.history = .empty) : s.Valid := by
  refine ⟨⟨hsound, ?_⟩, ?_⟩
  · rw [snapshot, hstart]
    exact SelectionSet.valid_start _
  · rw [hempty]
    exact History.all_empty _

theorem Valid.beginGroup (h : s.Valid) : s.beginGroup.Valid :=
  ⟨h.snapshot, h.history.beginGroup h.snapshot⟩

theorem Valid.commitGroup (h : s.Valid) : s.commitGroup.Valid :=
  ⟨h.snapshot, h.history.commitGroup h.snapshot⟩

theorem Valid.apply (h : s.Valid) {before : Snapshot} (hbefore : before.Valid)
    {edited : Edited} (hedited : edited.Valid) : (s.apply before edited).Valid := by
  have hafter : Snapshot.Valid ⟨edited.buffer, edited.selections⟩ :=
    ⟨hedited.sound, hedited.selections⟩
  rw [Session.apply]
  split_ifs
  · exact ⟨hafter, h.history⟩
  · exact ⟨hafter, h.history.record hbefore hafter⟩

theorem all_undoSteps {P : Snapshot → Prop} {history : History} {current : Snapshot}
    (hall : history.All P) (hcurrent : P current) (count : Nat) :
    P (undoSteps history current count).1 ∧ (undoSteps history current count).2.1.All P := by
  induction count generalizing history current with
  | zero => exact ⟨hcurrent, hall⟩
  | succ count ih =>
      rw [undoSteps]
      rcases hundo : history.undo? with _ | ⟨p, rest⟩
      · exact ⟨hcurrent, hall⟩
      · rcases hall.undo? hundo with ⟨hp, hrest⟩
        exact ih hrest hp

theorem all_redoSteps {P : Snapshot → Prop} {history : History} {current : Snapshot}
    (hall : history.All P) (hcurrent : P current) (count : Nat) :
    P (redoSteps history current count).1 ∧ (redoSteps history current count).2.1.All P := by
  induction count generalizing history current with
  | zero => exact ⟨hcurrent, hall⟩
  | succ count ih =>
      rw [redoSteps]
      rcases hredo : history.redo? with _ | ⟨p, rest⟩
      · exact ⟨hcurrent, hall⟩
      · rcases hall.redo? hredo with ⟨hp, hrest⟩
        exact ih hrest hp

theorem Valid.undo? (h : s.Valid) {count : Nat} (hundo : s.undo? count = some t) :
    t.Valid := by
  rcases all_undoSteps h.history h.snapshot count with ⟨hp, hhistory⟩
  simp only [Session.undo?, Option.ite_none_left_eq_some, Option.some.injEq] at hundo
  rw [← hundo.2]
  exact ⟨⟨hp.sound, SelectionSet.valid_clamped _ _⟩, hhistory⟩

theorem Valid.redo? (h : s.Valid) {count : Nat} (hredo : s.redo? count = some t) :
    t.Valid := by
  rcases all_redoSteps h.history h.snapshot count with ⟨hp, hhistory⟩
  simp only [Session.redo?, Option.ite_none_left_eq_some, Option.some.injEq] at hredo
  rw [← hredo.2]
  exact ⟨⟨hp.sound, SelectionSet.valid_clamped _ _⟩, hhistory⟩

/-- Saving changes neither the version nor the selections nor the history. -/
theorem save_frame (s : Session) (disk : Disk) (path : Option Text) :
    (s.save disk path).1.snapshot = s.snapshot ∧ (s.save disk path).1.history = s.history := by
  rw [save]
  split
  · exact ⟨rfl, rfl⟩
  · split <;> exact ⟨rfl, rfl⟩

theorem Valid.save (h : s.Valid) (disk : Disk) (path : Option Text) :
    (s.save disk path).1.Valid := by
  rcases save_frame s disk path with ⟨hsnapshot, hhistory⟩
  refine ⟨?_, ?_⟩
  · rw [hsnapshot]
    exact h.snapshot
  · rw [hhistory]
    exact h.history

end Session

end HexEditor
