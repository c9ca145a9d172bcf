import HexEditor.Proofs.Session.Descent

/-!
# Undoing back to a version

Take a session at a version that it has come to.  However it is edited from then on, by
single edits or in groups, the new changes lie on top of those that were there, and they
lead back to that version.  So undoing until as many changes are left as there were gives
the very version back, whatever has been done before.

Main results:

- Definition `Session.Since`: the changes since a version.
- Theorems `Session.Since.apply`, `Session.Since.beginGroup` and `Session.Since.commitGroup`:
  edits and groups add to these changes.
- Definition `Session.Undone` and theorem `Session.Since.sameVersion_of_undone`: undoing all
  of them.
- Definition `Workspace.Revised` and theorem `Workspace.Revised.clean_again`: a session that
  was clean becomes clean again.
-/

namespace HexEditor

namespace Session

variable {s t u : Session} {start : Rope} {base : List Change}

/-! ## Changes since a version -/

/-- The changes that can be undone are some that lead back to the given version, and then the
given ones. -/
structure Since (s : Session) (start : Rope) (base : List Change) : Prop where
  /-- The current version is complete. -/
  version : s.buffer.sameVersion s.buffer = true
  done : ∃ changes, s.history.done = changes ++ base ∧
    History.LeadsBack start changes s.present

/-- At the version itself no change has been made since. -/
theorem since_of_closed (hversion : s.buffer.sameVersion s.buffer = true)
    (hopened : s.history.opened = none) : s.Since s.buffer s.history.done := by
  refine ⟨hversion, [], rfl, ?_⟩
  rw [present_of_closed hopened]
  exact hversion

theorem Since.of_stays (h : s.Since start base) (ht : s.Stays t)
    (hversion : t.buffer.sameVersion t.buffer = true) : t.Since start base := by
  refine ⟨hversion, ?_⟩
  rw [ht.done, ht.present]
  exact h.done

theorem Since.beginGroup (h : s.Since start base) : s.beginGroup.Since start base :=
  h.of_stays s.stays_beginGroup h.version

theorem Since.commitGroup (h : s.Since start base) : s.commitGroup.Since start base := by
  rcases hopened : s.history.opened with _ | before
  · exact h.of_stays (stays_commitGroup hopened) h.version
  · rcases h.done with ⟨changes, hdone, hback⟩
    rw [present_of_opened hopened] at hback
    refine ⟨h.version, ?_⟩
    rcases history_commitGroup hopened with ⟨hsame, hhistory⟩ | ⟨hother, hhistory⟩
    · rw [present_of_closed (by rw [hhistory]), hhistory]
      exact ⟨changes, hdone, hback.congr hsame⟩
    · rw [present_of_closed (by rw [hhistory]), hhistory, hdone]
      exact ⟨⟨before, s.snapshot⟩ :: changes, rfl, h.version, hother, hback⟩

theorem Since.apply (h : s.Since start base) {e : Edited}
    (hversion : e.buffer.sameVersion e.buffer = true) :
    (s.apply s.snapshot e).Since start base :=
  apply_induction Since.of_stays Since.commitGroup h hversion

/-- When no change is left of those since the version, it is the current one. -/
theorem Since.sameVersion_of_depth (h : s.Since start base)
    (hopened : s.history.opened = none) (hdepth : s.history.depth = base.length) :
    start.sameVersion s.buffer = true := by
  rcases h.done with ⟨changes, hdone, hback⟩
  rw [History.depth, hdone, List.length_append, Nat.add_eq_right, List.length_eq_zero_iff]
    at hdepth
  rw [hdepth, present_of_closed hopened] at hback
  exact hback

/-! ## Undoing them -/

/-- Undoing a change that has been made since the version. -/
theorem Since.undo (h : s.Since start base) (hopened : s.history.opened = none)
    (hdepth : base.length < s.history.depth) (ht : s.go History.undo? = some t) :
    t.Since start base ∧ t.history.opened = none := by
  rcases h.done with ⟨_ | ⟨change, changes⟩, hdone, hback⟩
  · rw [History.depth, hdone, List.nil_append] at hdepth
    exact absurd hdepth (Nat.lt_irrefl _)
  · rcases of_go_undo? ht with ⟨change', earlier, hdone', hbuffer, hhistory⟩
    rw [hdone, List.cons_append, List.cons.injEq] at hdone'
    rcases hdone' with ⟨rfl, rfl⟩
    have hclosed : t.history.opened = none := by
      rw [hhistory]
      exact hopened
    refine ⟨⟨?_, changes, ?_, ?_⟩, hclosed⟩
    · rw [hbuffer]
      exact hback.2.2.version
    · rw [hhistory]
    · rw [present_of_closed hclosed, hbuffer]
      exact hback.2.2

/-- Some changes have been undone, one or several at a time. -/
def Undone : Session → Session → Prop :=
  Relation.ReflTransGen fun s t => ∃ count, s.undo? count = some t

/-- The changes have been undone one by one. -/
theorem Undone.exists_goTimes (h : s.Undone t) :
    ∃ k, goTimes History.undo? k s = some t := by
  induction h with
  | refl => exact ⟨0, rfl⟩
  | tail _ hstep ih =>
      rcases ih with ⟨k, hk⟩
      rcases hstep with ⟨count, hundo⟩
      rcases exists_goTimes_of_undo? hundo with ⟨k', -, -, hk'⟩
      refine ⟨k + k', ?_⟩
      rw [goTimes_add, hk]
      exact hk'

theorem saved_goTimes {step : History → Option (Snapshot × History)} {k : Nat}
    (h : goTimes step k s = some t) : t.saved = s.saved := by
  induction k generalizing s with
  | zero =>
      cases h
      rfl
  | succ k ih =>
      rcases goTimes_eq_some_succ.1 h with ⟨next, hnext, hrest⟩
      rcases Option.map_eq_some_iff.1 hnext with ⟨p, -, rfl⟩
      have hsaved := ih hrest
      exact hsaved

/-- Undoing as many changes as have been made since the version leads to it. -/
theorem Since.sameVersion_of_goTimes {k : Nat} (h : s.Since start base)
    (hopened : s.history.opened = none) (hdepth : s.history.depth = base.length + k)
    (ht : goTimes History.undo? k s = some t) : start.sameVersion t.buffer = true := by
  induction k generalizing s with
  | zero =>
      cases ht
      exact h.sameVersion_of_depth hopened hdepth
  | succ k ih =>
      rcases goTimes_eq_some_succ.1 ht with ⟨next, hnext, hrest⟩
      rcases h.undo hopened (by omega) hnext with ⟨hnextSince, hclosed⟩
      have hone := depth_goTimes_undo? (k := 1) (goTimes_one ▸ hnext)
      exact ih hnextSince hclosed (by omega) hrest

/-- All changes since the version can be undone. -/
theorem Since.exists_undone (h : s.Since start base) :
    ∃ t, s.Undone t ∧ t.history.depth = base.length := by
  rcases h.done with ⟨changes, hdone, -⟩
  have hdepth : s.history.depth = changes.length + base.length := by
    rw [History.depth, hdone, List.length_append]
  rcases exists_goTimes_undo? (s := s) (k := changes.length) (by omega) with ⟨t, ht⟩
  have htaken := depth_goTimes_undo? ht
  refine ⟨t, ?_, by omega⟩
  rcases Nat.eq_zero_or_pos changes.length with hzero | hpos
  · rw [hzero] at ht
    cases ht
    exact .refl
  · exact .single ⟨_, undo?_of_goTimes hpos ht⟩

/-- Whenever as many changes are left as there were at the version, it is the current one. -/
theorem Since.sameVersion_of_undone (h : s.Since start base) (hopened : s.history.opened = none)
    (ht : s.Undone t) (hdepth : t.history.depth = base.length) :
    start.sameVersion t.buffer = true ∧ t.saved = s.saved := by
  rcases ht.exists_goTimes with ⟨k, hk⟩
  have htaken := depth_goTimes_undo? hk
  exact ⟨h.sameVersion_of_goTimes hopened (by omega) hk, saved_goTimes hk⟩

theorem saved_apply (s : Session) (before : Snapshot) (e : Edited) :
    (s.apply before e).saved = s.saved := by
  rw [Session.apply]
  split_ifs <;> rfl

end Session

namespace Workspace

variable {w v : Workspace} {s t u : Session}

/-! ## Editing and undoing in the current session -/

/-- The current session has been edited, by single edits or in groups. -/
inductive Revised (w : Workspace) : Workspace → Prop where
  | rest : w.Revised w
  | select {v : Workspace} (revised : w.Revised v) (set : SelectionSet) :
      w.Revised (v.modifyCurrent fun s => { s with selections := set })
  | edit {v : Workspace} {s : Session} (revised : w.Revised v) (hs : v.current? = some s)
      (e : Edited) : w.Revised (v.applyEdit s.snapshot e)
  | beginGroup {v : Workspace} (revised : w.Revised v) :
      w.Revised (v.modifyCurrent Session.beginGroup)
  | commitGroup {v : Workspace} (revised : w.Revised v) :
      w.Revised (v.modifyCurrent Session.commitGroup)

/-- The session that is edited stays the current one, and the changes since the version lead
back to it. -/
theorem Revised.exists_since {start : Rope} {base : List Change} (h : w.Revised v)
    (hs : w.current? = some s) (hsince : s.Since start base) :
    ∃ t, v.current? = some t ∧ t.Since start base ∧ t.saved = s.saved := by
  induction h with
  | rest => exact ⟨s, hs, hsince, rfl⟩
  | select _ set ih =>
      rcases ih with ⟨t, ht, hsince, hsaved⟩
      exact ⟨_, current?_modifyCurrent ht _,
        hsince.of_stays (Session.stays_of_frame rfl rfl) hsince.version, hsaved⟩
  | @edit v r _ hr e ih =>
      rcases ih with ⟨t, ht, hsince, hsaved⟩
      rw [hr] at ht
      cases ht
      exact ⟨_, current?_modifyCurrent hr _, hsince.apply (Rope.sameVersion_complete _ _),
        (r.saved_apply _ _).trans hsaved⟩
  | beginGroup _ ih =>
      rcases ih with ⟨t, ht, hsince, hsaved⟩
      exact ⟨_, current?_modifyCurrent ht _, hsince.beginGroup, hsaved⟩
  | commitGroup _ ih =>
      rcases ih with ⟨t, ht, hsince, hsaved⟩
      exact ⟨_, current?_modifyCurrent ht _, hsince.commitGroup, hsaved⟩

/-- A session that is clean while no group is open becomes clean again when as many changes
are left as there were, and that many can always be undone. -/
theorem Revised.clean_again (h : w.Revised v) (hs : w.current? = some s)
    (hclean : s.isDirty = false) (hopened : s.history.opened = none)
    (ht : v.current? = some t) (hclosed : t.history.opened = none) :
    (∃ u, t.Undone u ∧ u.history.depth = s.history.depth) ∧
      ∀ u, t.Undone u → u.history.depth = s.history.depth → u.isDirty = false := by
  have hsame : s.buffer.sameVersion s.saved = true := by
    rw [Session.isDirty, Bool.not_eq_false'] at hclean
    exact hclean
  have hversion : s.buffer.sameVersion s.buffer = true :=
    Rope.sameVersion_trans hsame (Rope.sameVersion_symm hsame)
  rcases h.exists_since hs (Session.since_of_closed hversion hopened) with
    ⟨t', ht', hsince, hsaved⟩
  rw [ht] at ht'
  cases ht'
  refine ⟨hsince.exists_undone, ?_⟩
  intro u hu hdepth
  rcases hsince.sameVersion_of_undone hclosed hu hdepth with ⟨hback, hkept⟩
  rw [Session.isDirty, Bool.not_eq_false', hkept, hsaved]
  exact Rope.sameVersion_trans (Rope.sameVersion_symm hback) hsame

end Workspace

end HexEditor
