import HexEditor.Session.Basic

/-!
# The list of open sessions

Several files can be open at a time, and one of them is the current one.  Opening a
path whose file is open already switches to its session; saving the current session
to such a path does not look for one.

Main definitions:

- `Workspace` with its current session, `Workspace.current?`.
- `Workspace.openPath`, `openScratch`, `next`, `previous` and `close?`.
- `Workspace.write?` and `Workspace.writeAll` save sessions.
- `Workspace.applyEdit` installs an edit in the current session, as a version
  with a number of its own.
-/

namespace HexEditor

/-- The current session has changes that are not on the disk. -/
inductive CloseError where
  | unsavedChanges
deriving DecidableEq

/-- The wording of a refusal. -/
def CloseError.message : CloseError → Text
  | unsavedChanges => ascii "have unsaved changes, use :q! or :w"

/-- The open sessions. -/
structure Workspace where
  /-- The sessions in the order in which they were opened. -/
  sessions : List Session
  /-- The index of the current one. -/
  current : Nat
  /-- The number of the next version. -/
  nextVersion : Nat

namespace Workspace

/-- No session is open. -/
def empty : Workspace := ⟨[], 0, 0⟩

/-- The current session, if any is open. -/
def current? (w : Workspace) : Option Session := w.sessions[w.current]?

/-- Change the current session. -/
def modifyCurrent (w : Workspace) (f : Session → Session) : Workspace :=
  { w with sessions := w.sessions.modify w.current f }

/-- Add a session at the end and make it the current one. -/
def add (w : Workspace) (s : Session) : Workspace :=
  { w with sessions := w.sessions ++ [s], current := w.sessions.length }

/-! ## Opening and closing -/

/-- The index of the session on the file that the path means. -/
def find? (w : Workspace) (directory : Location) (path : Text) : Option Nat :=
  w.sessions.findIdx? fun s =>
    s.path.any fun p => Path.identity directory p == Path.identity directory path

/-- Open a path, or switch to its session.  A path without a file begins an empty
session that will be saved there. -/
def openPath (w : Workspace) (disk : Disk) (path : Text) : Workspace × FileReport :=
  match w.find? disk.directory path with
  | some i => ({ w with current := i }, .switchedTo path)
  | none =>
    if disk.hasEntry path then
      match disk.load path with
      | .error e => (w, .refused e)
      | .ok bytes =>
        let buffer := (Rope.ofBytes bytes).complete w.nextVersion
        ({ w with nextVersion := w.nextVersion + 1 }.add (.ofFile path buffer),
          .opened path buffer.length)
    else (w.add (.ofFile path .empty), .newFile path)

/-- Begin a session without a file. -/
def openScratch (w : Workspace) : Workspace := w.add .scratch

/-- Close the current session.  Changes that are not on the disk are given up
only when forced. -/
def close? (w : Workspace) (force : Bool) : Except CloseError Workspace :=
  match w.current? with
  | none => .ok w
  | some s =>
    if !force && s.isDirty then .error .unsavedChanges
    else
      let sessions := w.sessions.eraseIdx w.current
      .ok { w with sessions, current := min w.current (sessions.length - 1) }

/-- Go to the next session, and from the last one to the first. -/
def next (w : Workspace) : Workspace :=
  if w.sessions.isEmpty then w
  else { w with current := (w.current + 1) % w.sessions.length }

/-- Go to the previous session, and from the first one to the last. -/
def previous (w : Workspace) : Workspace :=
  if w.sessions.isEmpty then w
  else { w with current := (w.current + w.sessions.length - 1) % w.sessions.length }

/-! ## Saving -/

/-- Save the current session to a path, or to its own if none is given.  There
is no answer if no session is open. -/
def write? (w : Workspace) (disk : Disk) (path : Option Text) :
    Option (Workspace × Disk × FileReport) :=
  w.current?.map fun s =>
    let (s, disk, report) := s.save disk path
    (w.modifyCurrent fun _ => s, disk, report)

/-- Save sessions in order, those without a path excepted, up to the first that
is refused.  The numbers count what has been written and passed over so far. -/
def saveEach (written skipped : Nat) (disk : Disk) :
    List Session → List Session × Disk × FileReport
  | [] => ([], disk, .savedAll written skipped)
  | s :: rest =>
    match s.path with
    | none =>
      let (rest, disk, report) := saveEach written (skipped + 1) disk rest
      (s :: rest, disk, report)
    | some _ =>
      match s.save disk none with
      | (s, disk, .saved ..) =>
        let (rest, disk, report) := saveEach (written + 1) skipped disk rest
        (s :: rest, disk, report)
      | (s, disk, report) => (s :: rest, disk, report)

/-- Save all sessions that have a path. -/
def writeAll (w : Workspace) (disk : Disk) : Workspace × Disk × FileReport :=
  let (sessions, disk, report) := saveEach 0 0 disk w.sessions
  ({ w with sessions }, disk, report)

/-! ## Editing -/

/-- Install an edit of the current session as a new version. -/
def applyEdit (w : Workspace) (before : Snapshot) (edited : Edited) : Workspace :=
  let edited := { edited with buffer := edited.buffer.complete w.nextVersion }
  { w.modifyCurrent (·.apply before edited) with nextVersion := w.nextVersion + 1 }

end Workspace

end HexEditor
