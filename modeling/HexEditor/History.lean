import HexEditor.Rope.Basic
import HexEditor.Selection.Set

/-!
# Undo history

Versions are cheap to keep, so the history stores whole snapshots.  A group
collects all that happens between its beginning and its end into one change, and
a group that leads back to the version it began with leaves no trace.

Main definitions:

- `Snapshot` is a version with its selections, and `Change` a pair of them.
- `History.beginGroup` and `History.commitGroup` delimit a change, and
  `History.record` makes one at a stroke.
- `History.undo?` and `History.redo?` go one change back or forth.
-/

namespace HexEditor

/-- A version and the selections over it. -/
structure Snapshot where
  /-- The version. -/
  buffer : Rope
  /-- Its selections. -/
  selections : SelectionSet

/-- What can be undone in one step. -/
structure Change where
  /-- The state before the change. -/
  before : Snapshot
  /-- The state after it. -/
  after : Snapshot

/-- The changes that have been made and those that have been undone. -/
structure History where
  /-- Changes that can be undone, latest first. -/
  done : List Change
  /-- Changes that can be made again, the one undone last first. -/
  undone : List Change
  /-- The state at the beginning of the group that is open, if one is. -/
  opened : Option Snapshot

namespace History

/-- No change has been made. -/
def empty : History := ⟨[], [], none⟩

/-- Is a group open? -/
def isGrouping (h : History) : Bool := h.opened.isSome

/-- How many changes can be undone. -/
def depth (h : History) : Nat := h.done.length

/-- Open a group, unless one is open already. -/
def beginGroup (h : History) (before : Snapshot) : History :=
  match h.opened with
  | some _ => h
  | none => { h with opened := some before }

/-- Close the group that is open.  A new version makes a change, and what had
been undone is forgotten. -/
def commitGroup (h : History) (after : Snapshot) : History :=
  match h.opened with
  | none => h
  | some before =>
    if before.buffer.sameVersion after.buffer then { h with opened := none }
    else ⟨⟨before, after⟩ :: h.done, [], none⟩

/-- Record a single step. -/
def record (h : History) (before after : Snapshot) : History :=
  (h.beginGroup before).commitGroup after

/-- Forget the changes that have been undone. -/
def clearRedo (h : History) : History :=
  { h with undone := [] }

/-- Undo the latest change: the state to go back to, and the history then. -/
def undo? (h : History) : Option (Snapshot × History) :=
  match h.done with
  | [] => none
  | change :: rest => some (change.before, { h with done := rest, undone := change :: h.undone })

/-- Make the change again that was undone last: the state after it, and the
history then. -/
def redo? (h : History) : Option (Snapshot × History) :=
  match h.undone with
  | [] => none
  | change :: rest => some (change.after, { h with done := change :: h.done, undone := rest })

end History

end HexEditor
