import HexEditor.Disk.File
import HexEditor.Edit.Local
import HexEditor.History

/-!
# Sessions

A session is one open file: the version that is edited, the selections over it,
its history, the path it is saved to, and the version that is on the disk.  The
session is dirty while its version is not the very one on the disk, so undoing
back to the saved version makes it clean again.

Main definitions:

- `Session` with `isDirty`, `snapshot`, `restore` and `apply`.
- `FileReport` is what opening and saving report.
- `Session.save` writes a session to the disk.
-/

namespace HexEditor

/-- One open file. -/
structure Session where
  /-- The version that is edited. -/
  buffer : Rope
  /-- The selections over it. -/
  selections : SelectionSet
  /-- The changes that led to it. -/
  history : History
  /-- Where the session is saved. -/
  path : Option Text
  /-- The version that was last loaded or saved. -/
  saved : Rope
  /-- The first row that is shown. -/
  topRow : Nat

/-- What opening or saving files reports. -/
inductive FileReport where
  /-- A file of that length has been opened. -/
  | opened (path : Text) (length : Nat)
  /-- There is no file at the path yet. -/
  | newFile (path : Text)
  /-- The path was open already. -/
  | switchedTo (path : Text)
  /-- A file of that length has been written. -/
  | saved (path : Text) (length : Nat)
  /-- All sessions with a path have been written. -/
  | savedAll (written skipped : Nat)
  /-- There is no path to save to. -/
  | noPath
  /-- Loading or saving was refused. -/
  | refused (error : FileError)
deriving DecidableEq

namespace FileReport

/-- Does the report say that nothing was done? -/
def isFailure : FileReport → Bool
  | noPath => true
  | refused _ => true
  | _ => false

/-- The wording of a report. -/
def message : FileReport → Text
  | opened path length =>
    ascii "opened file: " ++ path ++
      (if length = 0 then ascii " (empty)" else ascii " (" ++ Text.decimal length ++ ascii " bytes)")
  | newFile path => ascii "new file: " ++ path
  | switchedTo path => ascii "switched to " ++ path
  | saved path length =>
    ascii "saved file: " ++ path ++ ascii " (" ++ Text.decimal length ++ ascii " bytes)"
  | savedAll written skipped =>
    ascii "wrote " ++ Text.decimal written ++ ascii " buffer(s)" ++
      (if skipped = 0 then [] else ascii ", " ++ Text.decimal skipped ++ ascii " without path")
  | noPath => ascii "don't have path, use :w <path>"
  | refused error => error.message

end FileReport

namespace Session

/-- A session without a file. -/
def scratch : Session := ⟨.empty, .start, .empty, none, .empty, 0⟩

/-- A session on the version that has just been loaded from a path. -/
def ofFile (path : Text) (buffer : Rope) : Session :=
  ⟨buffer, .start, .empty, some path, buffer, 0⟩

/-- Is the version another one than the disk holds? -/
def isDirty (s : Session) : Bool := !s.buffer.sameVersion s.saved

/-- The version and the selections as they are. -/
def snapshot (s : Session) : Snapshot := ⟨s.buffer, s.selections⟩

/-- Go back to a snapshot. -/
def restore (s : Session) (snapshot : Snapshot) : Session :=
  { s with
    buffer := snapshot.buffer
    selections := snapshot.selections.clamped snapshot.buffer.length }

/-- Install a new version.  Outside a group the step is recorded by itself. -/
def apply (s : Session) (before : Snapshot) (edited : Edited) : Session :=
  let s := { s with buffer := edited.buffer, selections := edited.selections }
  if s.history.isGrouping then s
  else { s with history := s.history.record before s.snapshot }

/-- Take the version for the one that is on the disk. -/
def markSaved (s : Session) : Session := { s with saved := s.buffer }

/-- Open a group of changes. -/
def beginGroup (s : Session) : Session :=
  { s with history := s.history.beginGroup s.snapshot }

/-- Close the group of changes. -/
def commitGroup (s : Session) : Session :=
  { s with history := s.history.commitGroup s.snapshot }

/-- Undo changes, at most `count` of them: the state of the last one undone, the
history then, and how many there were. -/
def undoSteps (history : History) (current : Snapshot) : Nat → Snapshot × History × Nat
  | 0 => (current, history, 0)
  | count + 1 =>
    match history.undo? with
    | none => (current, history, 0)
    | some (snapshot, history) =>
      let (last, history, steps) := undoSteps history snapshot count
      (last, history, steps + 1)

/-- Make undone changes again, at most `count` of them: the state of the last
one, the history then, and how many there were. -/
def redoSteps (history : History) (current : Snapshot) : Nat → Snapshot × History × Nat
  | 0 => (current, history, 0)
  | count + 1 =>
    match history.redo? with
    | none => (current, history, 0)
    | some (snapshot, history) =>
      let (last, history, steps) := redoSteps history snapshot count
      (last, history, steps + 1)

/-- Undo at most `count` changes.  There is no answer if there was none. -/
def undo? (s : Session) (count : Nat) : Option Session :=
  let (snapshot, history, steps) := undoSteps s.history s.snapshot count
  if steps = 0 then none else some ({ s with history }.restore snapshot)

/-- Make at most `count` undone changes again.  There is no answer if there was
none. -/
def redo? (s : Session) (count : Nat) : Option Session :=
  let (snapshot, history, steps) := redoSteps s.history s.snapshot count
  if steps = 0 then none else some ({ s with history }.restore snapshot)

/-- Write the session to a path, or to its own if none is given.  A session that
has been written belongs to that path from then on. -/
def save (s : Session) (disk : Disk) (path : Option Text) : Session × Disk × FileReport :=
  match path <|> s.path with
  | none => (s, disk, .noPath)
  | some target =>
    match disk.save target s.buffer with
    | (disk, .error e) => (s, disk, .refused e)
    | (disk, .ok ()) =>
      ({ s with path := some target }.markSaved, disk, .saved target s.buffer.length)

end Session

end HexEditor
