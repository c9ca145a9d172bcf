import HexEditor.Proofs.Disk.Lookup
import Mathlib.Data.List.Basic
import Mathlib.Data.List.TakeWhile

/-!
# The temporary file beside a file

The path of the temporary file is the path of the file with a suffix.  Unless the path ends in a
slash, the suffix makes its last component longer, so the temporary file lies beside the file.

Main results:

- Theorem `Path.names_append`: the components of a path with a suffix.
- Theorem `Disk.exists_ways`: a path and that of its temporary file name two locations in one
  directory.
- Theorem `Disk.locate_temporaryPath`: where the path names the same location on another disk, so
  does that of the temporary file.
- Theorem `Disk.exists_locate_of_reach_temporary`: a temporary file that can be opened has a
  location.
-/

namespace HexEditor

/-! ## Components -/

namespace Path

variable {path suffix : Text}

theorem parts_of_not_mem (h : slash ∉ suffix) : parts suffix = [suffix] := by
  induction suffix with
  | nil => rfl
  | cons b rest ih =>
      rw [List.mem_cons, not_or] at h
      rw [parts, if_neg (Ne.symm h.1), ih h.2]

/-- A suffix without a slash is added to the last part of a path. -/
theorem exists_parts_append (path : Text) :
    ∃ before last, ∀ suffix, slash ∉ suffix →
      parts (path ++ suffix) = before ++ [last ++ suffix] := by
  induction path with
  | nil => exact ⟨[], [], fun suffix h => parts_of_not_mem h⟩
  | cons b rest ih =>
      rcases ih with ⟨before, last, ih⟩
      by_cases hb : b = slash
      · refine ⟨[] :: before, last, fun suffix h => ?_⟩
        rw [List.cons_append, parts, if_pos hb, ih suffix h]
        rfl
      · cases before with
        | nil =>
            refine ⟨[], b :: last, fun suffix h => ?_⟩
            rw [List.cons_append, parts, if_neg hb, ih suffix h]
            rfl
        | cons part before =>
            refine ⟨(b :: part) :: before, last, fun suffix h => ?_⟩
            rw [List.cons_append, parts, if_neg hb, ih suffix h]
            rfl

/-- The last part is a component if it is not empty. -/
theorem names_of_parts {before : List Text} {last : Text} (h : parts path = before ++ [last])
    (hlast : last ≠ []) :
    names path = (before.filter fun part => !part.isEmpty) ++ [last] := by
  rw [names, h, List.filter_append, List.filter_cons_of_pos, List.filter_nil]
  rw [Bool.not_eq_true', List.isEmpty_eq_false_iff]
  exact hlast

/-- A suffix makes the last component of a path longer, or is one of its own. -/
theorem exists_names_append (path : Text) (hsuffix : slash ∉ suffix) (hnonempty : suffix ≠ []) :
    ∃ before last, names (path ++ suffix) = before ++ [last ++ suffix] := by
  rcases exists_parts_append path with ⟨before, last, hparts⟩
  have hlast := List.append_ne_nil_of_right_ne_nil last hnonempty
  exact ⟨_, last, names_of_parts (hparts suffix hsuffix) hlast⟩

/-- If the path does not end in a slash, the suffix is added to its last component. -/
theorem names_append (hpath : path ≠ []) (hslash : endsInSlash path = false)
    (hsuffix : slash ∉ suffix) :
    ∃ before last, names path = before ++ [last] ∧
      names (path ++ suffix) = before ++ [last ++ suffix] := by
  rcases List.eq_nil_or_concat' path with hnil | ⟨front, b, rfl⟩
  · exact absurd hnil hpath
  · rw [endsInSlash, List.getLast?_concat, beq_eq_false_iff_ne] at hslash
    have hb : slash ≠ b := fun h => hslash (congrArg some h.symm)
    have halone : slash ∉ [b] := by
      rw [List.mem_singleton]
      exact hb
    have hboth : slash ∉ b :: suffix := by
      rw [List.mem_cons, not_or]
      exact ⟨hb, hsuffix⟩
    rcases exists_parts_append front with ⟨before, last, hparts⟩
    refine ⟨_, last ++ [b], names_of_parts (hparts [b] halone) (by simp), ?_⟩
    rw [List.append_assoc, List.append_assoc, List.singleton_append]
    exact names_of_parts (hparts (b :: suffix) hboth) (by simp)

end Path

/-! ## The path of the temporary file -/

namespace Disk

variable {disk after : Disk} {path : Text} {place location : Location} {spot : Spot}

theorem endsInSlash_temporaryPath (path : Text) :
    Path.endsInSlash (temporaryPath path) = false := by
  rw [temporaryPath, Path.endsInSlash, List.getLast?_append]
  rfl

theorem origin_temporaryPath (disk : Disk) (hpath : path ≠ []) :
    disk.origin (temporaryPath path) = disk.origin path := by
  rcases List.exists_cons_of_ne_nil hpath with ⟨b, rest, rfl⟩
  rfl

/-- The system sees all of a path without a zero byte. -/
theorem takeWhile_of_not_mem (hzero : 0 ∉ path) : path.takeWhile (· ≠ 0) = path := by
  rw [List.takeWhile_eq_self_iff]
  intro b hb
  rw [decide_eq_true_eq]
  rintro rfl
  exact hzero hb

theorem eq_of_visible {seen : Text} (hzero : 0 ∉ path) (h : visible path = .ok seen) :
    seen = path := by
  rw [visible, takeWhile_of_not_mem hzero] at h
  split_ifs at h
  cases h
  rfl

theorem not_mem_temporaryPath (hzero : 0 ∉ path) : 0 ∉ temporaryPath path := by
  rw [temporaryPath, List.mem_append, not_or]
  exact ⟨hzero, by decide⟩

/-- The last component of the path of a temporary file is a name. -/
theorem proper_append_suffix (name : Text) :
    ¬ (name ++ ascii ".tmp" = Path.here ∨ name ++ ascii ".tmp" = Path.up) := by
  have hlength : 4 ≤ (name ++ ascii ".tmp").length := by simp [ascii]
  rintro (h | h)
  · rw [h] at hlength
    exact absurd hlength (by decide)
  · rw [h] at hlength
    exact absurd hlength (by decide)

/-- A temporary file that can be opened has a location, and its path leads there if there is no
link. -/
theorem exists_locate_of_reach_temporary (hzero : 0 ∉ path)
    (h : disk.reach (temporaryPath path) = .ok spot) :
    ∃ location, disk.locate (temporaryPath path) = .ok location ∧
      ((∀ target, disk.node? location ≠ some (.link target)) → spot.location = location) := by
  rcases Path.exists_names_append path (by decide : Path.slash ∉ ascii ".tmp") (by decide) with
    ⟨before, last, hnames⟩
  obtain ⟨seen, hvisible, -⟩ := reach_eq_ok_iff.1 h
  cases eq_of_visible (not_mem_temporaryPath hzero) hvisible
  exact exists_locate_of_reach h hvisible hnames (proper_append_suffix last)

/-- A path and that of its temporary file name two locations in one directory. -/
theorem exists_ways (hzero : 0 ∉ path) (hslash : Path.endsInSlash path = false)
    (h : disk.locate path = .ok place)
    (htemporary : disk.locate (temporaryPath path) = .ok location) :
    ∃ names name parent, disk.Way path names name parent ∧
      disk.Way (temporaryPath path) names (name ++ ascii ".tmp") parent ∧
      visible (temporaryPath path) = .ok (temporaryPath path) ∧
      place = parent ++ [name] ∧ location = parent ++ [name ++ ascii ".tmp"] := by
  rcases locate_eq_ok_iff.1 h with ⟨seen, names, name, parent, hvisible, hway, rfl⟩
  rcases locate_eq_ok_iff.1 htemporary with ⟨seen', names', name', parent', hvisible', hway', rfl⟩
  cases eq_of_visible hzero hvisible
  cases eq_of_visible (not_mem_temporaryPath hzero) hvisible'
  have hpath : path ≠ [] := by
    rintro rfl
    cases hvisible
  rcases Path.names_append hpath hslash (by decide : Path.slash ∉ ascii ".tmp") with
    ⟨before, last, hsplit, htmp⟩
  obtain ⟨rfl, hlast⟩ := List.append_inj' (hsplit.symm.trans hway.names_eq) rfl
  obtain ⟨rfl, hlast'⟩ := List.append_inj' (htmp.symm.trans hway'.names_eq) rfl
  rw [List.singleton_inj] at hlast hlast'
  subst hlast hlast'
  -- both have the same components in front, so both come to one directory
  have hparents : parent = parent' := by
    rcases hway.leads with ⟨_, hleads⟩
    rcases hway'.leads with ⟨_, hleads'⟩
    rw [origin_temporaryPath disk hpath, ← resolve_eq_ok_iff, resolve_eq_ok_iff.2 hleads,
      Except.ok.injEq, Spot.mk.injEq] at hleads'
    exact hleads'.1
  subst hparents
  exact ⟨_, _, _, hway, hway', hvisible', rfl, rfl⟩

/-- A file and its temporary file lie at different locations. -/
theorem locate_temporaryPath_ne (hzero : 0 ∉ path) (hslash : Path.endsInSlash path = false)
    (h : disk.locate path = .ok place)
    (htemporary : disk.locate (temporaryPath path) = .ok location) : place ≠ location := by
  rcases exists_ways hzero hslash h htemporary with ⟨_, name, parent, -, -, -, rfl, rfl⟩
  intro hsame
  have hlength := congrArg List.length (List.singleton_inj.1 (List.append_cancel_left hsame))
  simp [ascii] at hlength

/-- If the path names the same location on another disk, so does that of the temporary file. -/
theorem locate_temporaryPath (hzero : 0 ∉ path) (hslash : Path.endsInSlash path = false)
    (h : disk.locate path = .ok place)
    (htemporary : disk.locate (temporaryPath path) = .ok location)
    (hafter : after.locate path = .ok place) :
    after.locate (temporaryPath path) = .ok location := by
  rcases exists_ways hzero hslash h htemporary with
    ⟨names, name, parent, hway, hway', hvisible', hplace, rfl⟩
  rcases locate_eq_ok_iff.1 hafter with ⟨seen, names', name', parent', hvisible, hway'', hplace'⟩
  cases eq_of_visible hzero hvisible
  obtain ⟨rfl, hname⟩ := List.append_inj' (hway.names_eq.symm.trans hway''.names_eq) rfl
  obtain ⟨rfl, -⟩ := List.append_inj' (hplace.symm.trans hplace') rfl
  have hpath : path ≠ [] := by
    rintro rfl
    cases hvisible
  have hparent : after.node? parent = disk.node? parent := by
    rw [node?_of_step hway''.step, node?_of_step hway.step]
  refine locate_eq_ok_iff.2 ⟨_, names, _, parent, hvisible', ?_, rfl⟩
  refine ⟨hway'.names_eq, hway'.proper, ?_, ?_⟩
  · rw [origin_temporaryPath after hpath]
    exact hway''.leads
  · rw [step_congr hparent]
    exact hway'.step

end Disk

end HexEditor
