import HexEditor.Proofs.Disk.Saving
import HexEditor.Session.Workspace

/-!
# The working directory stays

Writing, renaming and removing files change the tree of a disk, never the directory
that relative paths begin at.  So a path that is opened later means the same location.

Main results:

- Theorem `Disk.directory_save`: saving a version keeps the directory.
- Theorems `Workspace.directory_write?` and `Workspace.directory_writeAll`: so does
  saving sessions.
-/

namespace HexEditor

namespace Disk

variable {disk changed : Disk}

theorem directory_openEmpty {path : Text} {number : Nat}
    (h : disk.openEmpty path = .ok (changed, number)) : changed.directory = disk.directory := by
  rcases openEmpty_ok h with ⟨spot, -, ⟨-, rfl⟩ | ⟨-, -, rfl⟩⟩
  · rfl
  · rfl

theorem directory_rename {source target : Text}
    (h : disk.rename source target = .ok changed) : changed.directory = disk.directory := by
  rcases rename_ok h with ⟨origin, place, node, -, -, -, -, ⟨-, rfl⟩ | ⟨-, rfl⟩⟩
  · rfl
  · rfl

theorem directory_remove (disk : Disk) (path : Text) :
    (disk.remove path).directory = disk.directory := by
  rw [remove_eq]
  split
  · rfl
  · rfl

/-- Saving a version keeps the directory, also when it is refused. -/
theorem directory_save (disk : Disk) (path : Text) (buffer : Rope) :
    (disk.save path buffer).1.directory = disk.directory := by
  rcases hsave : disk.save path buffer with ⟨after, outcome⟩
  cases saveResult_of_save hsave with
  | unopened => rfl
  | abandoned hopen =>
      have hopened := directory_openEmpty hopen
      exact (directory_remove _ _).trans hopened
  | replaced hopen hrename =>
      have hopened := directory_openEmpty hopen
      exact (directory_rename hrename).trans hopened

end Disk

theorem Session.directory_save (s : Session) (disk : Disk) (path : Option Text) :
    (s.save disk path).2.1.directory = disk.directory := by
  rw [Session.save]
  split
  · rfl
  · rename_i target _
    have hsave := Disk.directory_save disk target s.buffer
    split
    all_goals
      rename_i hsaved
      rw [hsaved] at hsave
      exact hsave

namespace Workspace

variable {disk : Disk}

theorem directory_write? {w : Workspace} {path : Option Text}
    {v : Workspace × Disk × FileReport} (hv : w.write? disk path = some v) :
    v.2.1.directory = disk.directory := by
  rcases Option.map_eq_some_iff.1 hv with ⟨s, -, rfl⟩
  exact s.directory_save disk path

theorem directory_saveEach (written skipped : Nat) (disk : Disk) (sessions : List Session) :
    (saveEach written skipped disk sessions).2.1.directory = disk.directory := by
  induction sessions generalizing written skipped disk with
  | nil => rfl
  | cons s sessions ih =>
      rw [saveEach]
      split
      · exact ih written (skipped + 1) disk
      · have hsave := s.directory_save disk none
        split
        · rename_i hsaved
          rw [hsaved] at hsave
          exact (ih (written + 1) skipped _).trans hsave
        · rename_i hsaved
          rw [hsaved] at hsave
          exact hsave

theorem directory_writeAll (w : Workspace) (disk : Disk) :
    (w.writeAll disk).2.1.directory = disk.directory :=
  directory_saveEach 0 0 disk w.sessions

end Workspace

end HexEditor
