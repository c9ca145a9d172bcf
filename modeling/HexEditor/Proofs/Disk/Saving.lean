import HexEditor.Proofs.Disk.Lookup
import HexEditor.Proofs.Disk.Stream
import HexEditor.Proofs.Rope.Walk

/-!
# What a save does to the disk

A save is a row of calls, each of which may be refused.  Here the row is taken apart
once: it ends before the temporary file is there, or with that file taken away again, or
with it put in its place.

Main definitions and results:

- Theorems `Disk.openEmpty_ok`, `Disk.rename_ok` and `Disk.remove_eq`: what opening,
  renaming and removing do at the locations of their paths.
- `Disk.SaveResult` lists how a save can end, and theorem `Disk.saveResult_of_save` says
  that there is no other end.
-/

namespace HexEditor

namespace Disk

variable {disk changed : Disk} {path : Text}

/-! ## The calls -/

/-- A file that was opened is empty.  It is the one that the path leads to, or has been made
there. -/
theorem openEmpty_ok {number : Nat} (h : disk.openEmpty path = .ok (changed, number)) :
    ∃ spot, disk.reach path = .ok spot ∧
      (disk.node? spot.location = some (.file number) ∧ changed = disk.setContent number [] ∨
        (∀ node, disk.node? spot.location = some node → ∃ target, node = .link target) ∧
          number = disk.freshNumber ∧ changed = disk.create spot.location []) := by
  obtain ⟨spot, hreach, h⟩ := exists_of_bind_eq_ok h
  refine ⟨spot, hreach, ?_⟩
  dsimp only [bind, Except.bind, throw, throwThe, MonadExceptOf.throw, pure, Except.pure] at h
  split at h
  · cases h
  · split at h
    · cases h
    · rename_i number hnode
      cases h
      exact .inl ⟨hnode, rfl⟩
    · rename_i hdirectory hfile
      cases h
      refine .inr ⟨fun node hnode => ?_, rfl, rfl⟩
      cases node with
      | file number => exact absurd hnode (hfile number)
      | directory => exact absurd hnode hdirectory
      | link target => exact ⟨target, rfl⟩

/-- What was renamed lies at its new place, unless both paths named one file, and there was no
directory in its place. -/
theorem rename_ok {source target : Text} (h : disk.rename source target = .ok changed) :
    ∃ origin place node, disk.locate source = .ok origin ∧ disk.locate target = .ok place ∧
      disk.node? origin = some node ∧
      (∃ seen, visible target = .ok seen ∧ Path.endsInSlash seen = false) ∧
      ((place = origin ∨ node.isFile = true ∧ disk.node? place = some node) ∧ changed = disk ∨
        disk.node? place ≠ some .directory ∧
          changed = (disk.dropNode origin).setNode place node) := by
  obtain ⟨seen, hseen, h⟩ := exists_of_bind_eq_ok h
  obtain ⟨aim, haim, h⟩ := exists_of_bind_eq_ok h
  obtain ⟨⟨sourceParent, sourceName⟩, hsource, h⟩ := exists_of_bind_eq_ok h
  obtain ⟨⟨targetParent, targetName⟩, htarget, h⟩ := exists_of_bind_eq_ok h
  dsimp only at h
  split at h
  · obtain ⟨origin, horigin, h⟩ := exists_of_bind_eq_ok h
    split at h
    · cases h
    · cases h
    · rename_i node _ hnode
      obtain ⟨place, hplace, h⟩ := exists_of_bind_eq_ok h
      split at h
      · cases h
      · rename_i hslash
        rw [Bool.or_eq_true, not_or, Bool.not_eq_true, Bool.not_eq_true] at hslash
        refine ⟨origin, place, node, locate_eq_ok hseen hsource horigin,
          locate_eq_ok haim htarget hplace, hnode, ⟨aim, haim, hslash.2⟩, ?_⟩
        dsimp only [bind, Except.bind, pure, Except.pure] at h
        split at h
        · rename_i hsame
          cases h
          exact .inl ⟨hsame, rfl⟩
        · split at h
          · cases h
          · rename_i hdirectory
            cases h
            exact .inr ⟨hdirectory, rfl⟩
  · cases h

/-- Removing takes away what lies at the location of the path, if it has one. -/
theorem remove_eq (disk : Disk) (path : Text) :
    disk.remove path = match disk.locate path with
      | .ok location => disk.dropNode location
      | .error _ => disk := by
  rw [remove, locate]
  rcases hvisible : visible path with cause | seen
  · rfl
  · rcases hplace : disk.place seen with cause | ⟨parent, name⟩
    · simp only [bind, Except.bind, hplace]
      rfl
    · cases name with
      | none =>
          simp only [bind, Except.bind, hplace]
          rfl
      | some name =>
          simp only [bind, Except.bind, hplace]
          cases disk.step parent name with
          | error cause => rfl
          | ok location => rfl

/-- A call that is not refused acts on a disk that differs in the answers to come
only. -/
theorem attempt_ok {α : Type} {call : Disk → Except DiskError α} {a : α}
    (h : disk.attempt call = (changed, .ok a)) :
    ∃ answers, call { disk with answers } = .ok a := by
  rw [attempt] at h
  split at h
  · exact ⟨disk.answers, congrArg Prod.snd h⟩
  · exact ⟨_, congrArg Prod.snd h⟩
  · cases h

/-- A refused call leaves everything but the answers to come. -/
theorem attempt_error {α : Type} {call : Disk → Except DiskError α} {cause : DiskError}
    (h : disk.attempt call = (changed, .error cause)) :
    ∃ answers, changed = { disk with answers } := by
  rw [attempt] at h
  split at h
  · exact ⟨disk.answers, (congrArg Prod.fst h).symm⟩
  all_goals exact ⟨_, (congrArg Prod.fst h).symm⟩

/-! ## The row of calls -/

/-- The disk while a file on it is written, and while it lies there. -/
def holding (disk : Disk) (number : Nat) (bytes : Bytes) (answers : List Answer) : Disk :=
  { disk.setContent number bytes with answers }

/-- How saving bytes at a path can end. -/
inductive SaveResult (disk : Disk) (path : Text) (bytes : Bytes) :
    Disk → Except FileError Unit → Prop where
  /-- The temporary file could not be opened. -/
  | unopened {answers : List Answer} {error : FileError} :
      SaveResult disk path bytes { disk with answers } (.error error)
  /-- The temporary file was not completed or not put in its place, and was removed. -/
  | abandoned {opened : Disk} {answers later : List Answer} {number : Nat} {content : Bytes}
      {error : FileError}
      (hopen : { disk with answers }.openEmpty (temporaryPath path) = .ok (opened, number)) :
      SaveResult disk path bytes
        ((opened.holding number content later).remove (temporaryPath path)) (.error error)
  /-- The temporary file was put in its place. -/
  | replaced {opened renamed : Disk} {answers later : List Answer} {number : Nat}
      (hopen : { disk with answers }.openEmpty (temporaryPath path) = .ok (opened, number))
      (hrename : (opened.holding number bytes later).rename (temporaryPath path) path =
        .ok renamed) :
      SaveResult disk path bytes renamed (.ok ())

/-- A save ends in one of these ways, and only what the whole version holds is put in the
place of a file. -/
theorem saveResult_of_save {buffer : Rope} {outcome : Except FileError Unit}
    (h : disk.save path buffer = (changed, outcome)) :
    SaveResult disk path (buffer.chunks ⟨0, buffer.length⟩).bytes changed outcome := by
  rw [save] at h
  split at h
  · rename_i hopen
    obtain ⟨answers, rfl⟩ := attempt_error hopen
    cases h
    exact .unopened
  · rename_i opened number hopen
    obtain ⟨answers, hopen⟩ := attempt_ok hopen
    dsimp only at h
    split at h
    · cases h
      exact .abandoned hopen
    · rename_i hwritten
      rw [← holding, Stream.content_of_transfer hwritten, ← Chunks.bytes] at h
      split at h
      · rename_i hrename
        obtain ⟨later, rfl⟩ := attempt_error hrename
        cases h
        exact .abandoned hopen
      · rename_i hrename
        obtain ⟨later, hrename⟩ := attempt_ok hrename
        cases h
        exact .replaced hopen hrename

end Disk

end HexEditor
