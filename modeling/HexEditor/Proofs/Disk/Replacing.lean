import HexEditor.Proofs.Disk.Directory
import HexEditor.Proofs.Disk.Temporary

/-!
# Saving replaces a file as a whole

However the system answers the calls of a save, the file at the path is afterwards the new one
with all its bytes, or whatever was there before.  The temporary file is gone, and nothing else
on the disk has changed.

The conditions are about what the two paths may mean already.  A save takes it for granted that
the path of the temporary file names a file of its own; but a path with a zero byte is cut there,
and that of its temporary file with it, and what lies at the path of the temporary file may be a
link or a second name of another file.

Main definitions and results:

- `Disk.Apart`: the conditions.
- `Disk.Replaced` and theorem `Disk.replaced_of_save`: what a save that succeeds leaves.
- `Disk.Kept` and theorem `Disk.kept_of_save`: what a save that is refused leaves.
-/

namespace HexEditor

namespace Disk

variable {disk held opened after : Disk} {path : Text} {buffer : Rope}
  {location place : Location} {number : Nat} {answers later : List Answer} {content : Bytes}

/-- What a path and that of its temporary file name are two things.  If there is a temporary file
already, it is a file with this one name. -/
structure Apart (disk : Disk) (path : Text) : Prop where
  /-- The system sees all of both paths. -/
  zero : 0 ∉ path
  /-- There is no link in the place of the temporary file. -/
  temporary : ∀ l target, disk.locate (temporaryPath path) = .ok l →
    disk.node? l ≠ some (.link target)
  /-- A file there has no other name. -/
  single : ∀ l l' number, disk.locate (temporaryPath path) = .ok l →
    disk.node? l = some (.file number) → disk.node? l' = some (.file number) → l' = l
  /-- The path is no link that leads to that file. -/
  other : ∀ l number asDirectory, disk.locate (temporaryPath path) = .ok l →
    disk.node? l = some (.file number) → disk.reach path ≠ .ok ⟨l, asDirectory⟩
  /-- A link at the path is not on the way to its own directory. -/
  own : ∀ l target, disk.locate path = .ok l → disk.node? l = some (.link target) →
    (disk.dropNode l).locate path = .ok l

/-- Where there is no temporary file yet, only a link at the path can be in the way. -/
theorem apart_of_missing (hzero : 0 ∉ path)
    (htemporary : disk.locate (temporaryPath path) = .ok location)
    (hmissing : disk.node? location = none) (hplace : disk.locate path = .ok place)
    (hown : (disk.dropNode place).locate path = .ok place) : disk.Apart path := by
  have hnone : ∀ l node, disk.locate (temporaryPath path) = .ok l → disk.node? l ≠ some node := by
    intro l node hl
    cases htemporary.symm.trans hl
    rw [hmissing]
    simp
  refine ⟨hzero, fun l target hl => hnone l _ hl, fun l l' number hl hnode => ?_,
    fun l number _ hl hnode => ?_, fun l target hl _ => ?_⟩
  · exact absurd hnode (hnone l _ hl)
  · exact absurd hnode (hnone l _ hl)
  · cases hplace.symm.trans hl
    exact hown

/-- The file at the path is a new one, and nothing else has changed. -/
structure Replaced (disk after : Disk) (path : Text) (bytes : Bytes) : Prop where
  load : after.load path = .ok bytes
  /-- There is no temporary file. -/
  temporary : after.hasEntry (temporaryPath path) = false
  /-- Not even a link is left in its place. -/
  gone : ∀ l, disk.locate (temporaryPath path) = .ok l → after.node? l = none
  others : ∀ l, disk.locate path ≠ .ok l → disk.locate (temporaryPath path) ≠ .ok l →
    disk.SameAt after l

/-- The path leads to what it led to before, and nothing else has changed either. -/
structure Kept (disk after : Disk) (path : Text) : Prop where
  entryAt : ∀ entry, after.entryAt path = .ok entry ↔ disk.entryAt path = .ok entry
  /-- There is no temporary file, unless there was one before. -/
  temporary : disk.hasEntry (temporaryPath path) = false →
    after.hasEntry (temporaryPath path) = false
  others : ∀ l, disk.locate (temporaryPath path) ≠ .ok l → disk.SameAt after l

/-! ## While the temporary file lies there -/

theorem SameAt.refl (disk : Disk) (l : Location) : disk.SameAt disk l :=
  ⟨rfl, fun _ _ => rfl⟩

/-- The answers to come do not change the ways. -/
theorem sameWays_answers (disk : Disk) (answers : List Answer) :
    disk.SameWays { disk with answers } :=
  sameWays_of_nodes rfl fun _ => rfl

/-- The conditions do not depend on how the system will answer. -/
theorem apart_answers (h : disk.Apart path) (answers : List Answer) :
    Apart { disk with answers } path := by
  have hways := sameWays_answers disk answers
  refine ⟨h.zero, fun l target hl => ?_, fun l l' number hl => ?_, fun l number slash hl => ?_,
    fun l target hl hnode => ?_⟩
  · exact h.temporary l target (hways.locate_iff.1 hl)
  · exact h.single l l' number (hways.locate_iff.1 hl)
  · intro hnode hreach
    exact h.other l number slash (hways.locate_iff.1 hl) hnode (hways.reach_iff.1 hreach)
  · have hdropped := sameWays_answers (disk.dropNode l) answers
    exact hdropped.locate (h.own l target (hways.locate_iff.1 hl) hnode)

/-- There is no temporary file if there is nothing at its location. -/
theorem hasEntry_temporaryPath (hzero : 0 ∉ path)
    (h : disk.locate (temporaryPath path) = .ok location) (hnone : disk.node? location = none) :
    disk.hasEntry (temporaryPath path) = false := by
  have hreach : disk.reach (temporaryPath path) = .ok ⟨location, false⟩ := by
    apply reach_of_locate h
    · intro seen hseen
      rw [eq_of_visible (not_mem_temporaryPath hzero) hseen]
      exact endsInSlash_temporaryPath path
    · intro target
      rw [hnone]
      simp
  rw [← Bool.not_eq_true, hasEntry_eq_true_iff]
  rintro ⟨entry, hentry⟩
  obtain ⟨spot, hspot, hfound⟩ := entryAt_eq_ok_iff.1 hentry
  cases hreach.symm.trans hspot
  rw [hnone] at hfound
  simp at hfound

/-- The second disk is the first one with a file at the location, where nothing but that file was
before, and which has this one name. -/
structure Laid (disk held : Disk) (location : Location) (number : Nat) : Prop where
  directory : held.directory = disk.directory
  node? : ∀ l, held.node? l = if l = location then some (.file number) else disk.node? l
  content : ∀ n, n ≠ number → held.content n = disk.content n
  before : ∀ node, disk.node? location = some node → node = .file number
  single : ∀ l, disk.node? l = some (.file number) → l = location

/-- The temporary file lies at its location while it is written. -/
theorem laid_of_openEmpty (hapart : disk.Apart path)
    (hopen : { disk with answers }.openEmpty (temporaryPath path) = .ok (opened, number))
    (content : Bytes) (later : List Answer) :
    ∃ location, disk.locate (temporaryPath path) = .ok location ∧
      disk.Laid (opened.holding number content later) location number := by
  obtain ⟨spot, hreach, hopened⟩ := openEmpty_ok hopen
  rw [(sameWays_answers disk answers).reach_iff] at hreach
  rcases exists_locate_of_reach_temporary hapart.zero hreach with ⟨location, hlocate, hend⟩
  have hlink := fun target => hapart.temporary location target hlocate
  rw [hend hlink] at hopened
  refine ⟨location, hlocate, ?_⟩
  rcases hopened with ⟨hnode, rfl⟩ | ⟨hlinks, rfl, rfl⟩
  · -- the file was there before and has lost its content
    change disk.node? location = some (.file number) at hnode
    refine ⟨rfl, fun l => ?_, fun n hn => ?_, fun node hsome => ?_, fun l hl => ?_⟩
    · change disk.node? l = _
      split_ifs with hl
      · rw [hl, hnode]
      · rfl
    · change ((disk.setContent number []).setContent number content).content n = _
      rw [content_setContent, if_neg hn, content_setContent, if_neg hn]
    · rw [hnode] at hsome
      exact (Option.some.inj hsome).symm
    · exact hapart.single location l number hlocate hnode hl
  · -- the file has been made
    have hnone : ∀ node, disk.node? location ≠ some node := by
      intro node hnode
      rcases hlinks node hnode with ⟨target, rfl⟩
      exact hlink target hnode
    refine ⟨rfl, fun l => ?_, fun n hn => ?_, fun node hnode => absurd hnode (hnone node),
      fun l hl => absurd (lt_freshNumber hl) (Nat.lt_irrefl _)⟩
    · exact node?_setNode (locate_ne_nil hlocate) _ l
    · change n ≠ disk.freshNumber at hn
      change ((disk.setContent disk.freshNumber []).setContent disk.freshNumber content).content n
        = _
      rw [content_setContent, if_neg hn, content_setContent, if_neg hn]

theorem content_holding (opened : Disk) (number : Nat) (content : Bytes) (later : List Answer) :
    (opened.holding number content later).content number = content := by
  change (opened.setContent number content).content number = content
  rw [content_setContent, if_pos rfl]

section Laid

variable (h : disk.Laid held location number)
include h

theorem Laid.isFile_before (node : Node) (hnode : disk.node? location = some node) :
    node.isFile = true := by
  rw [h.before node hnode]
  rfl

theorem Laid.sameWays : disk.SameWays held := by
  refine sameWays_of_ne location h.directory h.isFile_before ?_ ?_
  · intro node hnode
    rw [h.node?, if_pos rfl] at hnode
    cases hnode
    rfl
  · intro l hl
    rw [h.node?, if_neg hl]

/-- Only the content of the temporary file has changed. -/
theorem Laid.sameAt {l : Location} (hl : l ≠ location) (hnode : after.node? l = disk.node? l)
    (hcontent : ∀ n, after.content n = held.content n) : disk.SameAt after l := by
  refine ⟨hnode, fun n hn => ?_⟩
  rw [hcontent]
  apply h.content
  rintro rfl
  exact hl (h.single l hn)

/-- When the temporary file is taken away, there is nothing at its location. -/
theorem Laid.node?_dropNode (hlocation : location ≠ []) (l : Location) :
    (held.dropNode location).node? l = if l = location then none else disk.node? l := by
  rw [Disk.node?_dropNode hlocation, h.node?]
  split_ifs
  all_goals rfl

theorem Laid.sameWays_dropNode (hlocation : location ≠ []) :
    disk.SameWays (held.dropNode location) := by
  refine sameWays_of_ne location h.directory h.isFile_before ?_ ?_
  · intro node hnode
    rw [h.node?_dropNode hlocation, if_pos rfl] at hnode
    cases hnode
  · intro l hl
    rw [h.node?_dropNode hlocation, if_neg hl]

end Laid

/-! ## Saves that are refused -/

/-- If the temporary file is removed, the path leads to what it led to before. -/
theorem Laid.kept_of_remove (h : disk.Laid held location number) (hapart : disk.Apart path)
    (hlocate : disk.locate (temporaryPath path) = .ok location) :
    disk.Kept (held.remove (temporaryPath path)) path := by
  have hlocation := locate_ne_nil hlocate
  have hnodes := h.node?_dropNode hlocation
  have hways := h.sameWays_dropNode hlocation
  have hgone : (held.dropNode location).node? location = none := by rw [hnodes, if_pos rfl]
  have hothers : ∀ l, l ≠ location → disk.SameAt (held.dropNode location) l := by
    intro l hl
    exact h.sameAt hl (by rw [hnodes, if_neg hl]) fun _ => rfl
  rw [remove_eq, h.sameWays.locate hlocate]
  refine ⟨fun entry => ?_, fun _ => ?_, fun l hl => ?_⟩
  · apply hways.entryAt_iff
    intro spot hspot
    by_cases hl : spot.location = location
    · -- the path leads to the location of the temporary file only if there was nothing
      have hnone : disk.node? location = none := by
        rcases hnode : disk.node? location with _ | node
        · rfl
        · rw [h.before node hnode] at hnode
          rw [← hl] at hnode hlocate
          exact absurd hspot (hapart.other _ number _ hlocate hnode)
      rw [hl]
      refine ⟨hgone.trans hnone.symm, fun n hn => ?_⟩
      rw [hnone] at hn
      cases hn
    · exact hothers _ hl
  · exact hasEntry_temporaryPath hapart.zero (hways.locate hlocate) hgone
  · apply hothers
    rintro rfl
    exact hl hlocate

/-- A save that is refused leaves what the path leads to, leaves no temporary file where there
was none, and changes nothing but that file. -/
theorem kept_of_save {error : FileError} (hapart : disk.Apart path)
    (hsave : disk.save path buffer = (after, .error error)) : disk.Kept after path := by
  cases saveResult_of_save hsave with
  | @unopened answers _ =>
      have hentry : ∀ (p : Text) (entry : Entry),
          Disk.entryAt { disk with answers } p = .ok entry ↔ disk.entryAt p = .ok entry := by
        intro p entry
        exact (sameWays_answers disk answers).entryAt_iff fun spot _ => .refl disk spot.location
      refine ⟨hentry path, fun hnone => ?_, fun l _ => .refl disk l⟩
      rw [← Bool.not_eq_true, hasEntry_eq_true_iff] at hnone ⊢
      simp only [hentry]
      exact hnone
  | @abandoned opened answers later number content _ hopen =>
      rcases laid_of_openEmpty hapart hopen content later with ⟨location, hlocate, hlaid⟩
      exact hlaid.kept_of_remove hapart hlocate

/-! ## Saves that succeed -/

/-- Without what it names, a path that a file can be moved to still names the same location. -/
theorem Apart.locate_dropNode (hapart : disk.Apart path) (hplace : disk.locate path = .ok place)
    (hdirectory : disk.node? place ≠ some .directory) :
    (disk.dropNode place).locate path = .ok place := by
  have hdropped (l : Location) :
      (disk.dropNode place).node? l = if l = place then none else disk.node? l :=
    node?_dropNode (locate_ne_nil hplace) l
  by_cases hlink : ∃ target, disk.node? place = some (.link target)
  · rcases hlink with ⟨target, htarget⟩
    exact hapart.own place target hplace htarget
  · have hways : disk.SameWays (disk.dropNode place) := by
      refine sameWays_of_ne place rfl ?_ ?_ ?_
      · intro node hnode
        cases node with
        | file => rfl
        | directory => exact absurd hnode hdirectory
        | link target => exact absurd ⟨target, hnode⟩ hlink
      · intro node hnode
        rw [hdropped, if_pos rfl] at hnode
        cases hnode
      · intro l hl
        rw [hdropped, if_neg hl]
    exact hways.locate hplace

/-- The temporary file can be put in the place of anything but a directory, and both paths name
different locations. -/
theorem Laid.exists_place_of_rename (h : disk.Laid held location number)
    (hapart : disk.Apart path) (hlocate : disk.locate (temporaryPath path) = .ok location)
    (hrename : held.rename (temporaryPath path) path = .ok after) :
    ∃ place, disk.locate path = .ok place ∧ Path.endsInSlash path = false ∧ place ≠ location ∧
      disk.node? place ≠ some .directory ∧
      after = (held.dropNode location).setNode place (.file number) := by
  rcases rename_ok hrename with
    ⟨origin, place, node, horigin, hplace, hnode, ⟨seen, hseen, hslash⟩, hmoved⟩
  rw [h.sameWays.locate_iff] at horigin hplace
  cases hlocate.symm.trans horigin
  cases eq_of_visible hapart.zero hseen
  rw [h.node?, if_pos rfl] at hnode
  cases hnode
  have hne := locate_temporaryPath_ne hapart.zero hslash hplace hlocate
  rw [h.node?, if_neg hne] at hmoved
  rcases hmoved with ⟨hsame | ⟨-, hsame⟩, -⟩ | ⟨hdirectory, rfl⟩
  · exact absurd hsame hne
  · exact absurd (h.single place hsame) hne
  · exact ⟨place, hplace, hslash, hne, hdirectory, rfl⟩

/-- If the temporary file is put in the place of what the path names, the path leads to it. -/
theorem Laid.replaced_of_rename (h : disk.Laid held location number) (hapart : disk.Apart path)
    (hlocate : disk.locate (temporaryPath path) = .ok location)
    (hrename : held.rename (temporaryPath path) path = .ok after) :
    disk.Replaced after path (held.content number) := by
  rcases h.exists_place_of_rename hapart hlocate hrename with
    ⟨place, hplace, hslash, hne, hdirectory, rfl⟩
  have hlocation := locate_ne_nil hlocate
  have hnodes : ∀ l, ((held.dropNode location).setNode place (.file number)).node? l =
      if l = place then some (.file number)
      else if l = location then none else disk.node? l := by
    intro l
    rw [node?_setNode (locate_ne_nil hplace), h.node?_dropNode hlocation]
  have hfile : ((held.dropNode location).setNode place (.file number)).node? place =
      some (.file number) := by rw [hnodes, if_pos rfl]
  have hgone : ((held.dropNode location).setNode place (.file number)).node? location = none := by
    rw [hnodes, if_neg (Ne.symm hne), if_pos rfl]
  generalize hafter : (held.dropNode location).setNode place (.file number) = after at *
  have hcontent : ∀ n, after.content n = held.content n := by
    rw [← hafter]
    exact fun _ => rfl
  -- what was at the path is not on the way to it, so the way can be taken again
  have hways : (disk.dropNode place).SameWays after := by
    refine sameWays_of_files (by rw [← hafter]; exact h.directory) fun l => ?_
    rw [Disk.node?_dropNode (locate_ne_nil hplace), hnodes]
    split_ifs with hl hl'
    · refine .inr ⟨fun _ hnone => absurd hnone (by simp), fun node hnode => ?_⟩
      cases hnode
      rfl
    · subst hl'
      exact .inr ⟨h.isFile_before, fun _ hnone => absurd hnone (by simp)⟩
    · exact .inl rfl
  have hplaceAfter := hways.locate (hapart.locate_dropNode hplace hdirectory)
  have hlocateAfter := locate_temporaryPath hapart.zero hslash hplace hlocate hplaceAfter
  refine ⟨?_, hasEntry_temporaryPath hapart.zero hlocateAfter hgone, fun l hl => ?_,
    fun l hl hl' => ?_⟩
  · have hreach : after.reach path = .ok ⟨place, false⟩ := by
      apply reach_of_locate hplaceAfter
      · intro seen hseen
        rw [eq_of_visible hapart.zero hseen]
        exact hslash
      · intro target
        rw [hfile]
        simp
    have hentry : after.entryAt path = .ok (.file (held.content number)) := by
      refine entryAt_eq_ok_iff.2 ⟨_, hreach, .inl ⟨number, hfile, rfl, ?_⟩⟩
      rw [hcontent]
    rw [load, hentry]
  · cases hlocate.symm.trans hl
    exact hgone
  · have hother : l ≠ place := by
      rintro rfl
      exact hl hplace
    have hbeside : l ≠ location := by
      rintro rfl
      exact hl' hlocate
    exact h.sameAt hbeside (by rw [hnodes, if_neg hother, if_neg hbeside]) hcontent

/-- After a save that succeeds the path leads to a file with the bytes that were saved, there is
no temporary file, and nothing else has changed. -/
theorem replaced_of_save (hapart : disk.Apart path)
    (hsave : disk.save path buffer = (after, .ok ())) :
    disk.Replaced after path (buffer.chunks ⟨0, buffer.length⟩).bytes := by
  cases saveResult_of_save hsave with
  | @replaced opened _ answers later number hopen hrename =>
      rcases laid_of_openEmpty hapart hopen _ later with ⟨location, hlocate, hlaid⟩
      have hreplaced := hlaid.replaced_of_rename hapart hlocate hrename
      rw [content_holding] at hreplaced
      exact hreplaced

end Disk

end HexEditor
