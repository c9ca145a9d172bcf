import HexEditor.Disk.File
import Mathlib.Tactic.Common

/-!
# Following components and links

To look a path up is to walk from directory to directory, and through the links among them.  So
where a path leads depends on which locations are directories or links, and on nothing else:
putting files down or taking them away leaves every way as it was.

Main definitions and results:

- Theorems `Disk.node?_setNode` and `Disk.node?_dropNode`: what lies at a location after one node
  has been changed.
- `Disk.Leads` is where components lead, as a relation, and theorem `Disk.resolve_eq_ok_iff` says
  that it is what `Disk.resolve` finds.
- Theorems `Disk.Leads.exists_last` and `Disk.Leads.concat`: the last component of a way.
- `Disk.SameWays` relates disks with the same directories and links, and theorem
  `Disk.SameWays.leads` says that the ways on them are the same.
-/

namespace HexEditor

namespace Disk

variable {disk after : Disk} {location parent next : Location} {name : Text} {names : List Text}
  {links : Nat} {asDirectory : Bool} {spot : Spot}

/-- Two computations in a row succeed when the first one does, and the second one on its
result. -/
theorem exists_of_bind_eq_ok {ε α β : Type} {x : Except ε α} {f : α → Except ε β} {b : β}
    (h : x >>= f = .ok b) : ∃ a, x = .ok a ∧ f a = .ok b := by
  cases x with
  | error e => cases h
  | ok a => exact ⟨a, rfl, h⟩

/-! ## Nodes and contents -/

theorem find?_filter_ne {κ β : Type} [BEq κ] [LawfulBEq κ] [DecidableEq κ] (items : List (κ × β))
    (key k : κ) :
    (items.filter fun e => e.1 != key).find? (fun e => e.1 == k) =
      if k = key then none else items.find? fun e => e.1 == k := by
  rw [List.find?_filter]
  split_ifs with hsame
  · rw [List.find?_eq_none]
    intro e _
    simp [hsame]
  · congr 1
    funext e
    by_cases he : e.1 = k
    · simp [he, hsame]
    · simp [he]

/-- Another node at a location leaves all other locations. -/
theorem node?_setNode (hlocation : location ≠ []) (node : Node) (l : Location) :
    node? (disk.setNode location node) l = if l = location then some node else disk.node? l := by
  simp only [node?, setNode]
  split_ifs with hroot hsame hsame
  · rw [List.isEmpty_iff.1 hroot] at hsame
    exact absurd hsame.symm hlocation
  · rfl
  · rw [List.find?_cons_of_pos (by rw [hsame, beq_self_eq_true])]
    rfl
  · rw [List.find?_cons_of_neg (by rw [beq_iff_eq]; exact fun h => hsame h.symm),
      find?_filter_ne, if_neg hsame]

theorem node?_dropNode (hlocation : location ≠ []) (l : Location) :
    node? (disk.dropNode location) l = if l = location then none else disk.node? l := by
  simp only [node?, dropNode, find?_filter_ne]
  split_ifs with hroot hsame hsame
  · rw [List.isEmpty_iff.1 hroot] at hsame
    exact absurd hsame.symm hlocation
  · rfl
  · rfl
  · rfl

theorem content_setContent (disk : Disk) (number : Nat) (bytes : Bytes) (n : Nat) :
    (disk.setContent number bytes).content n = if n = number then bytes else disk.content n := by
  simp only [content, setContent]
  split_ifs with hsame
  · rw [List.find?_cons_of_pos (by rw [hsame, beq_self_eq_true])]
    rfl
  · rw [List.find?_cons_of_neg (by rw [beq_iff_eq]; exact fun h => hsame h.symm),
      find?_filter_ne, if_neg hsame]

/-- Files have lesser numbers than the fresh one. -/
theorem lt_freshNumber {number : Nat} (h : disk.node? location = some (.file number)) :
    number < disk.freshNumber := by
  have hbound : ∀ bounds : List Nat, number + 1 ∈ bounds → number < bounds.foldr max 0 := by
    intro bounds hmem
    induction bounds with
    | nil => cases hmem
    | cons bound bounds ih =>
        rw [List.foldr_cons]
        rcases List.mem_cons.1 hmem with rfl | hmem
        · omega
        · have := ih hmem
          omega
  rw [node?] at h
  split_ifs at h
  · cases h
  · obtain ⟨e, he, hnode⟩ := Option.map_eq_some_iff.1 h
    apply hbound
    rw [List.mem_map]
    refine ⟨e, List.mem_of_find?_eq_some he, ?_⟩
    rw [hnode]
    rfl

/-! ## Steps -/

theorem expectDirectory_eq_ok_iff :
    disk.expectDirectory location = .ok () ↔ disk.node? location = some .directory := by
  rw [expectDirectory]
  split
  · rename_i hnode
    rw [hnode]
    exact iff_of_true rfl rfl
  · rename_i hnode
    rw [hnode]
    exact iff_of_false (fun h => by cases h) (fun h => by cases h)
  · rename_i node hother hnode
    rw [hnode]
    refine iff_of_false (fun h => by cases h) fun h => ?_
    cases h
    exact hother rfl

/-- Components are followed out of directories only. -/
theorem node?_of_step (h : disk.step location name = .ok next) :
    disk.node? location = some .directory := by
  obtain ⟨_, hdirectory, -⟩ := exists_of_bind_eq_ok h
  exact expectDirectory_eq_ok_iff.1 hdirectory

theorem step_congr (h : after.node? location = disk.node? location) (name : Text) :
    after.step location name = disk.step location name := by
  simp only [step, expectDirectory, h]

/-- A component that is a name leads to the location with that name. -/
theorem eq_of_step (h : disk.step location name = .ok next)
    (hname : ¬ (name = Path.here ∨ name = Path.up)) : next = location ++ [name] := by
  obtain ⟨-, -, h⟩ := exists_of_bind_eq_ok h
  rw [not_or] at hname
  rw [if_neg hname.1, if_neg hname.2] at h
  split at h
  · cases h
  · cases h
    rfl

/-! ## Ways -/

/-- The components lead from the location to the spot, if so many links may be followed. -/
inductive Leads (disk : Disk) : Nat → Bool → Location → List Text → Spot → Prop where
  /-- There is nothing to follow. -/
  | stay (links : Nat) (asDirectory : Bool) (location : Location) :
      Leads disk links asDirectory location [] ⟨location, asDirectory⟩
  /-- The first component is no link, so the others go on where it leads to. -/
  | enter {links : Nat} {asDirectory : Bool} {location next : Location} {name : Text}
      {rest : List Text} {spot : Spot} (hstep : disk.step location name = .ok next)
      (hnode : ∀ target, disk.node? next ≠ some (.link target))
      (hrest : Leads disk links asDirectory next rest spot) :
      Leads disk links asDirectory location (name :: rest) spot
  /-- The first component is a link, and its own components come before the others. -/
  | follow {links : Nat} {asDirectory : Bool} {location next : Location} {name target : Text}
      {rest : List Text} {spot : Spot} (hstep : disk.step location name = .ok next)
      (hnode : disk.node? next = some (.link target))
      (hrest : Leads disk links (asDirectory || rest.isEmpty && Path.endsInSlash target)
        (beginning location target) (Path.names target ++ rest) spot) :
      Leads disk (links + 1) asDirectory location (name :: rest) spot

/-- Where the ways behind a link are right, the way up to it is. -/
theorem leads_of_resolveWith {onward : Bool → Location → List Text → Except DiskError Spot}
    (honward : ∀ {asDirectory location names spot},
      onward asDirectory location names = .ok spot →
        ∃ fewer, links = fewer + 1 ∧ disk.Leads fewer asDirectory location names spot)
    (h : disk.resolveWith onward asDirectory location names = .ok spot) :
    disk.Leads links asDirectory location names spot := by
  induction names generalizing location with
  | nil =>
      cases h
      exact .stay links asDirectory location
  | cons name rest ih =>
      obtain ⟨next, hstep, h⟩ := exists_of_bind_eq_ok h
      split at h
      · rename_i target hnode
        rcases honward h with ⟨fewer, rfl, hrest⟩
        exact .follow hstep hnode hrest
      · rename_i hnode
        exact .enter hstep hnode (ih h)

/-- What is found when links are followed is where the components lead. -/
theorem resolve_eq_ok_iff : disk.resolve links asDirectory location names = .ok spot ↔
    disk.Leads links asDirectory location names spot := by
  constructor
  · intro h
    induction links generalizing asDirectory location names spot with
    | zero =>
        apply leads_of_resolveWith _ h
        intro _ _ _ _ hnone
        cases hnone
    | succ links ih =>
        apply leads_of_resolveWith _ h
        intro _ _ _ _ hrest
        exact ⟨links, rfl, ih hrest⟩
  · intro h
    induction h with
    | stay links asDirectory location => cases links <;> rfl
    | @enter links asDirectory location next name rest spot hstep hnode _ ih =>
        rw [← ih]
        cases links
        all_goals
          simp only [resolve, resolveWith, hstep, bind, Except.bind]
    | follow hstep hnode _ ih =>
        rw [← ih]
        simp only [resolve, resolveWith, hstep, bind, Except.bind, hnode]

/-- A slash at the end does not change the location. -/
theorem Leads.exists_asDirectory (h : disk.Leads links asDirectory location names spot)
    (other : Bool) :
    ∃ asDirectory, disk.Leads links other location names ⟨spot.location, asDirectory⟩ := by
  induction h generalizing other with
  | stay links _ location => exact ⟨other, .stay links other location⟩
  | enter hstep hnode _ ih =>
      rcases ih other with ⟨asDirectory, hrest⟩
      exact ⟨asDirectory, .enter hstep hnode hrest⟩
  | follow hstep hnode _ ih =>
      rcases ih (other || _) with ⟨asDirectory, hrest⟩
      exact ⟨asDirectory, .follow hstep hnode hrest⟩

/-- The components before the last one lead to the directory of that one.  If it is no link, it
leads to the end of the way.  The links on the way put their components in front, so the last
one stays the last. -/
theorem Leads.exists_last (h : disk.Leads links asDirectory location (names ++ [name]) spot) :
    ∃ reached next, disk.Leads links false location names reached ∧
      disk.step reached.location name = .ok next ∧
      ((∀ target, disk.node? next ≠ some (.link target)) → spot = ⟨next, asDirectory⟩) := by
  generalize hall : names ++ [name] = all at h
  induction h generalizing names with
  | stay => exact absurd hall (List.append_ne_nil_of_right_ne_nil _ (List.cons_ne_nil _ _))
  | @enter links asDirectory location next first rest spot hstep hnode hrest ih =>
      rcases names with _ | ⟨second, names⟩
      · obtain ⟨rfl, rfl⟩ := List.cons.inj hall
        refine ⟨_, next, .stay links false location, hstep, fun _ => ?_⟩
        cases hrest
        rfl
      · obtain ⟨rfl, rfl⟩ := List.cons.inj hall
        rcases ih rfl with ⟨reached, last, hreached, hlast, hend⟩
        exact ⟨reached, last, .enter hstep hnode hreached, hlast, hend⟩
  | @follow links asDirectory location next first target rest spot hstep hnode hrest ih =>
      rcases names with _ | ⟨second, names⟩
      · obtain ⟨rfl, rfl⟩ := List.cons.inj hall
        exact ⟨_, next, .stay _ false location, hstep, fun hno => absurd hnode (hno target)⟩
      · obtain ⟨rfl, rfl⟩ := List.cons.inj hall
        have hsplit : (Path.names target ++ names) ++ [name] =
            Path.names target ++ (names ++ [name]) := List.append_assoc _ _ _
        rcases ih hsplit with ⟨reached, last, hreached, hlast, hend⟩
        rcases hreached.exists_asDirectory
          (false || names.isEmpty && Path.endsInSlash target) with ⟨slash, hreached⟩
        refine ⟨_, last, .follow hstep hnode hreached, hlast, fun hno => ?_⟩
        rw [hend hno]
        simp

/-- A last component that is no link is followed behind the others. -/
theorem Leads.concat (h : disk.Leads links false location names spot)
    (hstep : disk.step spot.location name = .ok next)
    (hnode : ∀ target, disk.node? next ≠ some (.link target)) (asDirectory : Bool) :
    disk.Leads links asDirectory location (names ++ [name]) ⟨next, asDirectory⟩ := by
  generalize false = other at h
  induction h generalizing asDirectory with
  | stay links _ location => exact .enter hstep hnode (.stay links asDirectory next)
  | enter hfirst hother _ ih => exact .enter hfirst hother (ih hstep asDirectory)
  | @follow links _ location _ first target rest spot hfirst hlink _ ih =>
      have hslash : (asDirectory || (rest ++ [name]).isEmpty && Path.endsInSlash target) =
          asDirectory := by simp
      refine .follow hfirst hlink ?_
      change disk.Leads links (asDirectory || (rest ++ [name]).isEmpty && _) _
        (Path.names target ++ (rest ++ [name])) _
      rw [hslash, ← List.append_assoc]
      exact ih hstep asDirectory

/-! ## Disks with the same directories and links -/

/-- The same locations are directories on both disks, and the same are links. -/
structure SameWays (disk after : Disk) : Prop where
  directory : after.directory = disk.directory
  directories : ∀ l, after.node? l = some .directory ↔ disk.node? l = some .directory
  links : ∀ l target, after.node? l = some (.link target) ↔ disk.node? l = some (.link target)

theorem SameWays.symm (h : disk.SameWays after) : after.SameWays disk :=
  ⟨h.directory.symm, fun l => (h.directories l).symm, fun l target => (h.links l target).symm⟩

/-- Disks with the same nodes have the same ways. -/
theorem sameWays_of_nodes (hdirectory : after.directory = disk.directory)
    (h : ∀ l, after.node? l = disk.node? l) : disk.SameWays after :=
  ⟨hdirectory, fun l => by rw [h l], fun l target => by rw [h l]⟩

/-- Disks have the same ways if they differ only where there is nothing or a file on both. -/
theorem sameWays_of_files (hdirectory : after.directory = disk.directory)
    (h : ∀ l, after.node? l = disk.node? l ∨
      (∀ node, disk.node? l = some node → node.isFile = true) ∧
        ∀ node, after.node? l = some node → node.isFile = true) : disk.SameWays after := by
  have hsame : ∀ (node : Node) (l : Location), node.isFile = false →
      (after.node? l = some node ↔ disk.node? l = some node) := by
    intro node l hnode
    rcases h l with heq | ⟨hdisk, hafter⟩
    · rw [heq]
    · refine iff_of_false (fun h => ?_) fun h => ?_
      · rw [hafter node h] at hnode
        cases hnode
      · rw [hdisk node h] at hnode
        cases hnode
  exact ⟨hdirectory, fun l => hsame .directory l rfl, fun l target => hsame (.link target) l rfl⟩

theorem sameWays_of_ne (location : Location) (hdirectory : after.directory = disk.directory)
    (hdisk : ∀ node, disk.node? location = some node → node.isFile = true)
    (hafter : ∀ node, after.node? location = some node → node.isFile = true)
    (hkept : ∀ l, l ≠ location → after.node? l = disk.node? l) : disk.SameWays after := by
  refine sameWays_of_files hdirectory fun l => ?_
  by_cases hl : l = location
  · rw [hl]
    exact .inr ⟨hdisk, hafter⟩
  · exact .inl (hkept l hl)

theorem SameWays.origin (h : disk.SameWays after) (path : Text) :
    after.origin path = disk.origin path := by
  rw [Disk.origin, Disk.origin, h.directory]

/-- A step out of a directory leads to the same location on the other disk. -/
theorem SameWays.step (h : disk.SameWays after) (hstep : disk.step location name = .ok next) :
    after.step location name = .ok next := by
  have hlocation := node?_of_step hstep
  rw [step_congr (by rw [hlocation, h.directories, hlocation]), hstep]

/-- The ways on one disk are ways on the other. -/
theorem SameWays.leads (h : disk.SameWays after)
    (hleads : disk.Leads links asDirectory location names spot) :
    after.Leads links asDirectory location names spot := by
  induction hleads with
  | stay links asDirectory location => exact .stay links asDirectory location
  | enter hstep hnode _ ih =>
      refine .enter (h.step hstep) (fun target hlink => ?_) ih
      exact hnode target ((h.links _ target).1 hlink)
  | follow hstep hnode _ ih => exact .follow (h.step hstep) ((h.links _ _).2 hnode) ih

end Disk

end HexEditor
