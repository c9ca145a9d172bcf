import HexEditor.Editor.Mode
import HexEditor.Editor.Notice

/-!
# The state of the editor

The editor has open sessions, registers, a mode and a pending count, and it works
on a disk.  All commands are functions from one state to the next; one that
cannot go on at all ends in a fault and leaves the state as it was.

Main definitions:

- `Editor` is the state and `Editor.start` the first one.
- `Fault` says why a command could not go on.
- `Editor.select` and `Editor.edit` change the current session.
-/

namespace HexEditor

/-- What the view of a file shows. -/
structure ViewOptions where
  /-- How many bytes a row shows. -/
  width : Nat
  /-- Is the column of characters shown? -/
  showAscii : Bool
  /-- Is the column of offsets shown? -/
  showOffsets : Bool
deriving DecidableEq

/-- The view at the start. -/
def ViewOptions.initial : ViewOptions := ⟨16, true, true⟩

/-- Why a command could not go on. -/
inductive Fault where
  /-- A range did not lie in the version. -/
  | range (error : RangeError)
deriving DecidableEq

/-- The state of the editor. -/
structure Editor where
  /-- The open sessions. -/
  workspace : Workspace
  /-- The disk with the files. -/
  disk : Disk
  /-- What has been copied. -/
  registers : Registers
  /-- The number that is being typed. -/
  count : Count
  /-- How the next key is understood. -/
  mode : Mode
  /-- What the view shows. -/
  view : ViewOptions
  /-- What the last command told. -/
  notice : Notice
  /-- Has the last session been closed? -/
  quit : Bool
  /-- Has a command asked for the current session where none was open?  Nothing is
  promised of what happens then and later, so this is never taken back. -/
  astray : Bool

namespace Editor

/-- The editor on some open sessions; without any it begins an empty one. -/
def start (workspace : Workspace) (disk : Disk) : Editor where
  workspace := if workspace.sessions.isEmpty then workspace.openScratch else workspace
  disk := disk
  registers := .empty
  count := .empty
  mode := .normal
  view := .initial
  notice := .blank
  quit := false
  astray := false

/-- Tell something. -/
def tell (ed : Editor) (notice : Notice) : Editor := { ed with notice }

/-- Go to another mode. -/
def enter (ed : Editor) (mode : Mode) : Editor := { ed with mode }

/-- Change the current session. -/
def modifySession (ed : Editor) (f : Session → Session) : Editor :=
  { ed with workspace := ed.workspace.modifyCurrent f }

/-- Replace the selections of the current session. -/
def select (ed : Editor) (selections : SelectionSet) : Editor :=
  ed.modifySession fun s => { s with selections }

/-- Replace the selections of the current session, or tell why not. -/
def selectOrTell (ed : Editor) (selections : Except SelectionError SelectionSet) : Editor :=
  match selections with
  | .ok selections => ed.select selections
  | .error e => ed.tell (.badSelection e)

/-- Install an edit of the current session, which had the given state before. -/
def edit (ed : Editor) (before : Session) (edited : Except RangeError Edited) :
    Except Fault Editor :=
  match edited with
  | .ok edited =>
    .ok { ed with workspace := ed.workspace.applyEdit before.snapshot edited }
  | .error e => .error (.range e)

/-- Copy the bytes below the selections to the default register. -/
def copy (ed : Editor) (s : Session) : Except Fault Editor :=
  match s.buffer.yank s.selections with
  | .ok entries => .ok { ed with registers := ed.registers.write Registers.defaultName entries }
  | .error e => .error (.range e)

end Editor

end HexEditor
