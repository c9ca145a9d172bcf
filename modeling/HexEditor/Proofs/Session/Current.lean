import HexEditor.Proofs.Session.Descent

/-!
# The current session

As long as sessions are open, one of them is the current one, whatever has been done to the
list.

Main results:

- Definition `Workspace.HasCurrent` and theorem `Workspace.HasCurrent.moves`: the index of the
  current session points at one of the open ones.
- Theorems `Workspace.map_modifyCurrent` and `Workspace.modifyCurrent_self`: changes of the
  current session that keep something of it, or all of it.
-/

namespace HexEditor

namespace Workspace

/-! ## The index -/

/-- As long as sessions are open, one of them is current. -/
def HasCurrent (w : Workspace) : Prop :=
  0 < w.sessions.length → w.current < w.sessions.length

variable {directory : Location} {w v : Workspace}

theorem hasCurrent_empty : HasCurrent .empty :=
  fun h => h

theorem HasCurrent.modifyCurrent (h : w.HasCurrent) (f : Session → Session) :
    (w.modifyCurrent f).HasCurrent := by
  simpa only [HasCurrent, Workspace.modifyCurrent, List.length_modify] using h

/-- A session that is added becomes the current one. -/
theorem hasCurrent_add (w : Workspace) (s : Session) : (w.add s).HasCurrent := by
  intro _
  simp only [add, List.length_append, List.length_singleton]
  omega

theorem HasCurrent.openPath (h : w.HasCurrent) (disk : Disk) (path : Text) :
    (w.openPath disk path).1.HasCurrent := by
  rw [Workspace.openPath]
  split
  · rename_i i hi
    intro _
    rw [find?, List.findIdx?_eq_some_iff_getElem] at hi
    exact hi.1
  · split_ifs
    · split
      · exact h
      · exact hasCurrent_add _ _
    · exact hasCurrent_add _ _

/-- Closing the last session of the list makes the one in front of it current. -/
theorem HasCurrent.close (h : w.HasCurrent) {force : Bool} (hv : w.close? force = .ok v) :
    v.HasCurrent := by
  rw [close?] at hv
  split at hv
  · cases hv
    exact h
  · split_ifs at hv
    cases hv
    intro hpos
    dsimp only at hpos ⊢
    omega

theorem hasCurrent_next (w : Workspace) : w.next.HasCurrent := by
  rw [next]
  split_ifs with hempty
  · intro hpos
    rw [List.isEmpty_iff.1 hempty] at hpos
    cases hpos
  · exact fun hpos => Nat.mod_lt _ hpos

theorem hasCurrent_previous (w : Workspace) : w.previous.HasCurrent := by
  rw [previous]
  split_ifs with hempty
  · intro hpos
    rw [List.isEmpty_iff.1 hempty] at hpos
    cases hpos
  · exact fun hpos => Nat.mod_lt _ hpos

theorem HasCurrent.move (h : w.HasCurrent) (hmove : Move directory w v) : v.HasCurrent := by
  cases hmove with
  | select _ _ => exact h.modifyCurrent _
  | beginGroup => exact h.modifyCurrent _
  | commitGroup => exact h.modifyCurrent _
  | edit _ _ => exact h.modifyCurrent _
  | undo _ _ => exact h.modifyCurrent _
  | redo _ _ => exact h.modifyCurrent _
  | openPath disk _ path => exact h.openPath disk path
  | openScratch => exact hasCurrent_add w _
  | close hv => exact h.close hv
  | next => exact hasCurrent_next w
  | previous => exact hasCurrent_previous w
  | write hv =>
      rcases Option.map_eq_some_iff.1 hv with ⟨s, -, rfl⟩
      exact h.modifyCurrent _
  | writeAll disk =>
      intro hpos
      rw [writeAll, length_saveEach] at hpos ⊢
      exact h hpos

/-- Whatever moves lead from no session to the open ones, one of these is current. -/
theorem HasCurrent.moves (h : w.HasCurrent) (hmoves : Moves directory w v) :
    v.HasCurrent := by
  induction hmoves with
  | refl => exact h
  | tail _ hmove ih => exact ih.move hmove

/-- No session is current only if none is open. -/
theorem HasCurrent.current?_eq_none_iff (h : w.HasCurrent) :
    w.current? = none ↔ w.sessions = [] := by
  rw [current?, List.getElem?_eq_none_iff, ← List.length_eq_zero_iff]
  constructor
  · intro hle
    by_contra hopen
    exact absurd (h (Nat.pos_of_ne_zero hopen)) (Nat.not_lt.2 hle)
  · intro hnone
    rw [hnone]
    exact Nat.zero_le _

/-! ## Changes that keep something -/

/-- What a change of the current session keeps, all sessions keep. -/
theorem map_modifyCurrent {α : Type} {g : Session → α} {f : Session → Session}
    (hf : ∀ s, g (f s) = g s) (w : Workspace) :
    (w.modifyCurrent f).sessions.map g = w.sessions.map g := by
  apply List.ext_getElem?
  intro i
  simp only [modifyCurrent, List.getElem?_map, List.getElem?_modify, Option.map_eq_map,
    Option.map_map]
  congr 1
  funext s
  simp only [Function.comp_apply]
  split_ifs
  · exact hf s
  · rfl

/-- Putting the current session in its own place changes nothing. -/
theorem modifyCurrent_self {s : Session} (hs : w.current? = some s) :
    (w.modifyCurrent fun _ => s) = w := by
  have hsessions : w.sessions.modify w.current (fun _ => s) = w.sessions := by
    apply List.ext_getElem?
    intro i
    rw [List.getElem?_modify]
    split_ifs with hcurrent
    · rw [← hcurrent]
      rw [current?] at hs
      rw [hs]
      rfl
    · simp
  rw [modifyCurrent, hsessions]

end Workspace

end HexEditor
