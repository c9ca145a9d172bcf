import HexEditor.Proofs.Disk.Resolving

/-!
# Looking up paths

A path names a file, a directory or a link by its last component, and leads to what is found when
that component is followed too.  Both differ only if the last component is a link.

Main definitions and results:

- `Disk.locate` is the location that a path names, and theorem `Disk.locate_eq_ok_iff` takes the
  way to it apart.
- Theorems `Disk.SameWays.locate_iff` and `Disk.SameWays.reach_iff`: paths name the same locations
  and lead to the same ones on disks with the same ways.
- Theorem `Disk.reach_of_locate`: a path leads to what it names if that is no link.
- Theorem `Disk.entryAt_eq_ok_iff`: the entry that a path leads to.
-/

namespace HexEditor

namespace Disk

variable {disk after : Disk} {path : Text} {location parent : Location} {name : Text}
  {names : List Text} {spot : Spot}

/-! ## The location that a path names -/

/-- The way to the directory in which a path names its last component, and that component. -/
structure Way (disk : Disk) (path : Text) (names : List Text) (name : Text)
    (parent : Location) : Prop where
  names_eq : Path.names path = names ++ [name]
  /-- The last component is a name. -/
  proper : ¬ (name = Path.here ∨ name = Path.up)
  leads : ∃ asDirectory, disk.Leads linkLimit false (disk.origin path) names ⟨parent, asDirectory⟩
  step : disk.step parent name = .ok (parent ++ [name])

/-- The location that a path names, whether or not there is anything yet.  Its directory must
be there. -/
def locate (disk : Disk) (path : Text) : Except DiskError Location := do
  let path ← visible path
  let (parent, name) ← disk.place path
  match name with
  | none => throw .busy
  | some name => disk.step parent name

theorem locate_eq_ok {seen : Text} (hvisible : visible path = .ok seen)
    (hplace : disk.place seen = .ok (parent, some name))
    (hstep : disk.step parent name = .ok location) : disk.locate path = .ok location := by
  simp only [locate, hvisible, hplace, hstep, bind, Except.bind]

theorem Way.place (h : disk.Way path names name parent) :
    disk.place path = .ok (parent, some name) := by
  rcases h.leads with ⟨asDirectory, hleads⟩
  rw [Disk.place, h.names_eq, List.dropLast_concat, resolve_eq_ok_iff.2 hleads,
    List.getLast?_concat]
  change (do disk.expectDirectory parent; _) = _
  rw [expectDirectory_eq_ok_iff.2 (node?_of_step h.step)]
  change Except.ok (parent, if _ then _ else _) = _
  rw [if_neg h.proper]

theorem exists_way (hplace : disk.place path = .ok (parent, some name))
    (hstep : disk.step parent name = .ok location) :
    location = parent ++ [name] ∧ ∃ names, disk.Way path names name parent := by
  obtain ⟨spot, hleads, hplace⟩ := exists_of_bind_eq_ok hplace
  obtain ⟨_, -, hplace⟩ := exists_of_bind_eq_ok hplace
  rw [resolve_eq_ok_iff] at hleads
  split at hplace
  · cases hplace
  · rename_i last hlast
    rcases List.getLast?_eq_some_iff.1 hlast with ⟨names, hnames⟩
    rw [hnames, List.dropLast_concat] at hleads
    by_cases hproper : last = Path.here ∨ last = Path.up
    · rw [if_pos hproper] at hplace
      cases hplace
    · rw [if_neg hproper] at hplace
      cases hplace
      have hlocation := eq_of_step hstep hproper
      rw [hlocation] at hstep
      exact ⟨hlocation, names, hnames, hproper, ⟨spot.asDirectory, hleads⟩, hstep⟩

/-- A path names the location to which a way leads. -/
theorem locate_eq_ok_iff : disk.locate path = .ok location ↔
    ∃ seen names name parent, visible path = .ok seen ∧ disk.Way seen names name parent ∧
      location = parent ++ [name] := by
  constructor
  · intro h
    obtain ⟨seen, hvisible, h⟩ := exists_of_bind_eq_ok h
    obtain ⟨⟨parent, name⟩, hplace, h⟩ := exists_of_bind_eq_ok h
    cases name with
    | none => cases h
    | some name =>
        rcases exists_way hplace h with ⟨hlocation, names, hway⟩
        exact ⟨seen, names, name, parent, hvisible, hway, hlocation⟩
  · rintro ⟨seen, names, name, parent, hvisible, hway, rfl⟩
    exact locate_eq_ok hvisible hway.place hway.step

theorem locate_ne_nil (h : disk.locate path = .ok location) : location ≠ [] := by
  rcases locate_eq_ok_iff.1 h with ⟨seen, names, name, parent, -, -, rfl⟩
  exact List.append_ne_nil_of_right_ne_nil _ (List.cons_ne_nil _ _)

theorem SameWays.way (h : disk.SameWays after) (hway : disk.Way path names name parent) :
    after.Way path names name parent := by
  rcases hway.leads with ⟨asDirectory, hleads⟩
  refine ⟨hway.names_eq, hway.proper, ⟨asDirectory, ?_⟩, h.step hway.step⟩
  rw [h.origin]
  exact h.leads hleads

theorem SameWays.locate (h : disk.SameWays after) (hlocate : disk.locate path = .ok location) :
    after.locate path = .ok location := by
  rcases locate_eq_ok_iff.1 hlocate with ⟨seen, names, name, parent, hvisible, hway, hlocation⟩
  exact locate_eq_ok_iff.2 ⟨seen, names, name, parent, hvisible, h.way hway, hlocation⟩

/-- Paths name the same locations on disks with the same ways. -/
theorem SameWays.locate_iff (h : disk.SameWays after) :
    after.locate path = .ok location ↔ disk.locate path = .ok location :=
  ⟨h.symm.locate, h.locate⟩

/-! ## Where a path leads -/

theorem reach_eq_ok_iff : disk.reach path = .ok spot ↔ ∃ seen, visible path = .ok seen ∧
    disk.Leads linkLimit (Path.endsInSlash seen) (disk.origin seen) (Path.names seen) spot := by
  constructor
  · intro h
    obtain ⟨seen, hvisible, h⟩ := exists_of_bind_eq_ok h
    exact ⟨seen, hvisible, resolve_eq_ok_iff.1 h⟩
  · rintro ⟨seen, hvisible, hleads⟩
    rw [reach, hvisible]
    exact resolve_eq_ok_iff.2 hleads

theorem SameWays.reach (h : disk.SameWays after) (hreach : disk.reach path = .ok spot) :
    after.reach path = .ok spot := by
  rcases reach_eq_ok_iff.1 hreach with ⟨seen, hvisible, hleads⟩
  refine reach_eq_ok_iff.2 ⟨seen, hvisible, ?_⟩
  rw [h.origin]
  exact h.leads hleads

/-- Paths lead to the same locations on disks with the same ways. -/
theorem SameWays.reach_iff (h : disk.SameWays after) :
    after.reach path = .ok spot ↔ disk.reach path = .ok spot :=
  ⟨h.symm.reach, h.reach⟩

/-- A path leads to the location that it names if there is no link. -/
theorem reach_of_locate (h : disk.locate path = .ok location)
    (hslash : ∀ seen, visible path = .ok seen → Path.endsInSlash seen = false)
    (hnode : ∀ target, disk.node? location ≠ some (.link target)) :
    disk.reach path = .ok ⟨location, false⟩ := by
  rcases locate_eq_ok_iff.1 h with ⟨seen, names, name, parent, hvisible, hway, rfl⟩
  rcases hway.leads with ⟨asDirectory, hleads⟩
  refine reach_eq_ok_iff.2 ⟨seen, hvisible, ?_⟩
  rw [hslash seen hvisible, hway.names_eq]
  exact hleads.concat hway.step hnode false

/-- A path that leads anywhere and ends in a name names a location, and leads there if there is
no link. -/
theorem exists_locate_of_reach {seen : Text} (h : disk.reach path = .ok spot)
    (hvisible : visible path = .ok seen) (hnames : Path.names seen = names ++ [name])
    (hproper : ¬ (name = Path.here ∨ name = Path.up)) :
    ∃ location, disk.locate path = .ok location ∧
      ((∀ target, disk.node? location ≠ some (.link target)) → spot.location = location) := by
  rcases reach_eq_ok_iff.1 h with ⟨seen', hvisible', hleads⟩
  cases hvisible.symm.trans hvisible'
  rw [hnames] at hleads
  rcases hleads.exists_last with ⟨reached, next, hreached, hstep, hend⟩
  have hnext := eq_of_step hstep hproper
  subst hnext
  have hway : disk.Way seen names name reached.location :=
    ⟨hnames, hproper, ⟨reached.asDirectory, hreached⟩, hstep⟩
  refine ⟨_, locate_eq_ok_iff.2 ⟨seen, names, name, _, hvisible, hway, rfl⟩, fun hno => ?_⟩
  rw [hend hno]

/-! ## Entries -/

/-- A path leads to the content of a file, unless a slash at its end asks for a directory, or to
a directory. -/
theorem entryAt_eq_ok_iff {entry : Entry} : disk.entryAt path = .ok entry ↔
    ∃ spot, disk.reach path = .ok spot ∧
      ((∃ number, disk.node? spot.location = some (.file number) ∧ spot.asDirectory = false ∧
          entry = .file (disk.content number)) ∨
        disk.node? spot.location = some .directory ∧ entry = .directory) := by
  constructor
  · intro h
    obtain ⟨spot, hreach, h⟩ := exists_of_bind_eq_ok h
    refine ⟨spot, hreach, ?_⟩
    split at h
    · rename_i number hnode
      split_ifs at h with hslash
      cases h
      exact .inl ⟨number, hnode, Bool.eq_false_iff.2 hslash, rfl⟩
    · rename_i hnode
      cases h
      exact .inr ⟨hnode, rfl⟩
    · cases h
  · rintro ⟨spot, hreach, ⟨number, hnode, hslash, rfl⟩ | ⟨hnode, rfl⟩⟩
    · simp only [entryAt, hreach, bind, Except.bind, hnode, hslash, Bool.false_eq_true, if_false]
      rfl
    · simp only [entryAt, hreach, bind, Except.bind, hnode]
      rfl

theorem hasEntry_eq_true_iff :
    disk.hasEntry path = true ↔ ∃ entry, disk.entryAt path = .ok entry := by
  rw [hasEntry]
  rcases disk.entryAt path with cause | entry
  · exact iff_of_false Bool.false_ne_true fun ⟨_, h⟩ => by cases h
  · exact iff_of_true rfl ⟨entry, rfl⟩

/-- Two disks hold the same at a location: the same node, and a file with the same content. -/
def SameAt (disk after : Disk) (l : Location) : Prop :=
  after.node? l = disk.node? l ∧
    ∀ number, disk.node? l = some (.file number) → after.content number = disk.content number

/-- A path leads to the same entry on disks with the same ways that hold the same at its end. -/
theorem SameWays.entryAt_iff (h : disk.SameWays after)
    (hend : ∀ spot, disk.reach path = .ok spot → disk.SameAt after spot.location) {entry : Entry} :
    after.entryAt path = .ok entry ↔ disk.entryAt path = .ok entry := by
  rw [entryAt_eq_ok_iff, entryAt_eq_ok_iff]
  refine exists_congr fun spot => ?_
  rw [h.reach_iff]
  refine and_congr_right fun hreach => ?_
  rcases hend spot hreach with ⟨hnode, hcontent⟩
  rw [hnode]
  refine or_congr (exists_congr fun number => and_congr_right fun hfile => ?_) Iff.rfl
  rw [hcontent number hfile]

end Disk

end HexEditor
