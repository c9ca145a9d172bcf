import HexEditor.Proofs.Session.Saving

/-!
# Sessions on the same file

A file should be open in one session at most: if two sessions are on one file, saving both of
them leaves the bytes of one, and both look saved.  Opening a path looks for a session on its
file first, however the path is spelled.  Saving the current session to another path does not
look, so it can take a file that another session is on.  Nothing else that is done to the list
of sessions brings two of them to one file.

Main results:

- Definition `Workspace.Distinct`: the normal forms of the paths of the sessions are pairwise
  distinct.
- Definition `Workspace.Takes`: the current session takes the file of another one.
- Theorem `Workspace.Distinct.move_iff`: a move keeps the files distinct exactly if it takes
  none.
- Theorem `Workspace.distinct_until_taken`: runs of moves.
- Theorem `Workspace.write_takes_file`: files are taken.
-/

namespace HexEditor

/-- The file that a session is on, by the normal form of its path. -/
def Session.file? (directory : Location) (s : Session) : Option (Option (Location × Bool)) :=
  s.path.map (Path.identity directory)

namespace Session

variable {s t : Session}

theorem path_undo? {count : Nat} (ht : s.undo? count = some t) : t.path = s.path := by
  simp only [undo?, Option.ite_none_left_eq_some, Option.some.injEq] at ht
  rw [← ht.2]
  rfl

theorem path_redo? {count : Nat} (ht : s.redo? count = some t) : t.path = s.path := by
  simp only [redo?, Option.ite_none_left_eq_some, Option.some.injEq] at ht
  rw [← ht.2]
  rfl

end Session

namespace Workspace

/-- The files that the sessions of a list are on. -/
def filesOf (directory : Location) (sessions : List Session) : List (Option (Location × Bool)) :=
  sessions.filterMap (Session.file? directory)

/-- No two sessions are on one file. -/
def Distinct (directory : Location) (w : Workspace) : Prop :=
  (filesOf directory w.sessions).Nodup

instance (directory : Location) (w : Workspace) : Decidable (w.Distinct directory) :=
  inferInstanceAs (Decidable (List.Nodup _))

/-- The current session is saved to a path of a file that another session is on. -/
def Takes (directory : Location) (w v : Workspace) : Prop :=
  ∃ disk target disk' length,
    w.write? disk (some target) = some (v, disk', .saved target length) ∧
      Path.identity directory target ∈ filesOf directory (w.sessions.eraseIdx w.current)

variable {directory : Location} {w v : Workspace} {s t : Session}

/-! ## The files of a list -/

/-- The files depend on the paths alone. -/
theorem filesOf_eq_of_paths {sessions sessions' : List Session}
    (h : sessions'.map (·.path) = sessions.map (·.path)) :
    filesOf directory sessions' = filesOf directory sessions := by
  have hpaths : ∀ list : List Session, filesOf directory list =
      (list.map (·.path)).filterMap fun path => path.map (Path.identity directory) := by
    intro list
    rw [List.filterMap_map]
    rfl
  rw [hpaths, hpaths, h]

theorem filesOf_modifyCurrent {f : Session → Session} (hf : ∀ s, (f s).path = s.path) :
    filesOf directory (w.modifyCurrent f).sessions = filesOf directory w.sessions :=
  filesOf_eq_of_paths (map_modifyCurrent hf w)

/-- The sessions before and behind the current one. -/
theorem exists_around_current (hs : w.current? = some s) :
    ∃ before after, w.sessions = before ++ s :: after ∧
      w.sessions.eraseIdx w.current = before ++ after ∧
      ∀ t, (w.modifyCurrent fun _ => t).sessions = before ++ t :: after := by
  rcases List.getElem?_eq_some_iff.1 hs with ⟨hlt, hget⟩
  refine ⟨w.sessions.take w.current, w.sessions.drop (w.current + 1), ?_, ?_, fun t => ?_⟩
  · rw [← hget, ← List.drop_eq_getElem_cons hlt, List.take_append_drop]
  · exact List.eraseIdx_eq_take_drop_succ ..
  · rw [modifyCurrent, List.modify_eq_take_cons_drop hlt]

theorem filesOf_replaceCurrent (hs : w.current? = some s) (hpath : t.path = s.path) :
    filesOf directory (w.modifyCurrent fun _ => t).sessions = filesOf directory w.sessions := by
  rcases exists_around_current hs with ⟨before, after, hsessions, -, hreplaced⟩
  apply filesOf_eq_of_paths
  rw [hreplaced, hsessions, List.map_append, List.map_append, List.map_cons, List.map_cons, hpath]

/-- When the current session goes to another path, the files stay distinct exactly if no other
session is on that file. -/
theorem Distinct.replaceCurrent_iff (h : w.Distinct directory) (hs : w.current? = some s)
    {target : Text} (hpath : t.path = some target) :
    (w.modifyCurrent fun _ => t).Distinct directory ↔
      Path.identity directory target ∉ filesOf directory (w.sessions.eraseIdx w.current) := by
  rcases exists_around_current hs with ⟨before, after, hsessions, hothers, hreplaced⟩
  have hrest : (filesOf directory (before ++ after)).Nodup := by
    refine List.Nodup.sublist (List.Sublist.filterMap _ ?_) h
    rw [hsessions]
    exact List.Sublist.append_left (List.sublist_cons_self s after) before
  have hfile : t.file? directory = some (Path.identity directory target) := by
    rw [Session.file?, hpath]
    rfl
  rw [Distinct, hreplaced, hothers]
  rw [filesOf, List.filterMap_append] at hrest ⊢
  rw [filesOf, List.filterMap_append, List.filterMap_cons_some hfile, List.nodup_middle,
    List.nodup_cons]
  exact and_iff_left hrest

/-- Opening a path adds a session on its file only if none is on it. -/
theorem openPath_cases (w : Workspace) (disk : Disk) (path : Text) :
    (w.openPath disk path).1.sessions = w.sessions ∨
      ∃ s, s.path = some path ∧ (w.openPath disk path).1.sessions = w.sessions ++ [s] ∧
        Path.identity disk.directory path ∉ filesOf disk.directory w.sessions := by
  rw [openPath]
  split
  · exact .inl rfl
  · rename_i hfind
    have hnew : Path.identity disk.directory path ∉ filesOf disk.directory w.sessions := by
      intro hmem
      rcases List.mem_filterMap.1 hmem with ⟨s, hs, hfile⟩
      rcases Option.map_eq_some_iff.1 hfile with ⟨p, hp, hsame⟩
      have hother := List.findIdx?_eq_none_iff.1 hfind s hs
      rw [hp, Option.any_some, hsame, beq_self_eq_true] at hother
      cases hother
    split_ifs
    · split
      · exact .inl rfl
      · exact .inr ⟨_, rfl, rfl, hnew⟩
    · exact .inr ⟨_, rfl, rfl, hnew⟩

/-! ## Moves -/

/-- A move keeps the files distinct, unless it takes the file of another session. -/
theorem Distinct.move (h : w.Distinct directory) (hmove : Move directory w v)
    (htakes : ¬ Takes directory w v) : v.Distinct directory := by
  have hsame : ∀ {v : Workspace}, filesOf directory v.sessions = filesOf directory w.sessions →
      v.Distinct directory := by
    intro v hfiles
    rw [Distinct, hfiles]
    exact h
  cases hmove with
  | select _ _ => exact hsame (filesOf_modifyCurrent fun _ => rfl)
  | beginGroup => exact hsame (filesOf_modifyCurrent fun _ => rfl)
  | commitGroup => exact hsame (filesOf_modifyCurrent fun _ => rfl)
  | edit _ _ =>
      refine hsame (filesOf_modifyCurrent fun s => ?_)
      rw [Session.apply]
      dsimp only
      split_ifs
      all_goals rfl
  | undo hs ht => exact hsame (filesOf_replaceCurrent hs (Session.path_undo? ht))
  | redo hs ht => exact hsame (filesOf_replaceCurrent hs (Session.path_redo? ht))
  | openPath disk hdisk path =>
      rcases w.openPath_cases disk path with hsessions | ⟨s, hpath, hsessions, hnew⟩
      · rw [Distinct, hsessions]
        exact h
      · rw [hdisk] at hnew
        have hfile : s.file? directory = some (Path.identity directory path) := by
          rw [Session.file?, hpath]
          rfl
        rw [Distinct, hsessions, filesOf, List.filterMap_append, List.filterMap_cons_some hfile,
          List.filterMap_nil]
        exact List.Nodup.append h (List.nodup_singleton _) (List.disjoint_singleton.2 hnew)
  | openScratch =>
      apply hsame
      rw [openScratch, add, filesOf, List.filterMap_append]
      exact List.append_nil _
  | close hv =>
      rw [Distinct, (eq_of_close hv).1]
      exact List.Nodup.sublist (List.Sublist.filterMap _ (List.eraseIdx_sublist _ _)) h
  | next =>
      rcases w.exists_next_eq with ⟨i, hi⟩
      rw [hi]
      exact h
  | previous =>
      rcases w.exists_previous_eq with ⟨i, hi⟩
      rw [hi]
      exact h
  | write hv =>
      rename_i disk path u
      rcases Option.map_eq_some_iff.1 hv with ⟨s, hs, rfl⟩
      rcases path with _ | target
      · exact hsame (filesOf_replaceCurrent hs (s.path_save_none disk))
      · rcases s.save_some_cases disk target with ⟨hkept, -⟩ | ⟨hpath, hreport⟩
        · exact hsame (filesOf_replaceCurrent hs (congrArg _ hkept))
        · refine (h.replaceCurrent_iff hs hpath).2 fun hmem => htakes ?_
          refine ⟨disk, target, (s.save disk (some target)).2.1, s.buffer.length, ?_, hmem⟩
          rw [hv, ← hreport]
  | writeAll disk => exact hsame (filesOf_eq_of_paths (map_path_saveEach 0 0 disk w.sessions))

/-- Taking the file of another session brings two sessions to it. -/
theorem Takes.not_distinct (htakes : Takes directory w v) (h : w.Distinct directory) :
    ¬ v.Distinct directory := by
  rcases htakes with ⟨disk, target, disk', length, hwrite, hmem⟩
  rcases Option.map_eq_some_iff.1 hwrite with ⟨s, hs, hsaved⟩
  rcases s.save_some_cases disk target with ⟨-, hfailure⟩ | ⟨hpath, -⟩
  · rw [congrArg (·.2.2) hsaved] at hfailure
    cases hfailure
  · have hv : (w.modifyCurrent fun _ => (s.save disk (some target)).1) = v :=
      congrArg (·.1) hsaved
    rw [← hv, h.replaceCurrent_iff hs hpath]
    exact not_not_intro hmem

/-- A move keeps the files distinct exactly if it does not take the file of another session. -/
theorem Distinct.move_iff (h : w.Distinct directory) (hmove : Move directory w v) :
    v.Distinct directory ↔ ¬ Takes directory w v :=
  ⟨fun hv htakes => htakes.not_distinct h hv, h.move hmove⟩

/-! ## Runs -/

/-- A sequence of moves none of which takes the file of another session. -/
def Untaken (directory : Location) : Workspace → Workspace → Prop :=
  Relation.ReflTransGen fun w v => Move directory w v ∧ ¬ Takes directory w v

theorem Distinct.untaken (h : w.Distinct directory) (hrun : Untaken directory w v) :
    v.Distinct directory := by
  induction hrun with
  | refl => exact h
  | tail _ hlast ih => exact ih.move hlast.1 hlast.2

/-- In every run from no session, the index of the current session points at an open one as
long as there is one.  The files of the sessions are pairwise distinct as long as the current
session is not saved to a path of a file that another session is on, and the first time that
this happens they are distinct no more. -/
theorem distinct_until_taken (directory : Location) :
    (∀ w, Moves directory .empty w → 0 < w.sessions.length → w.current < w.sessions.length) ∧
    (∀ w, Untaken directory .empty w → w.Distinct directory) ∧
    ∀ w v, w.Distinct directory → Move directory w v →
      (v.Distinct directory ↔ ¬ Takes directory w v) := by
  refine ⟨fun w hmoves => hasCurrent_empty.moves hmoves, fun w hrun => ?_, fun w v => ?_⟩
  · have hempty : Distinct directory .empty := List.nodup_nil
    exact hempty.untaken hrun
  · exact Distinct.move_iff

/-- Saving does not change how many sessions are open. -/
theorem Takes.length_eq (htakes : Takes directory w v) :
    v.sessions.length = w.sessions.length := by
  rcases htakes with ⟨disk, target, disk', length, hwrite, -⟩
  rcases Option.map_eq_some_iff.1 hwrite with ⟨s, -, hsaved⟩
  have hv : (w.modifyCurrent fun _ => (s.save disk (some target)).1) = v :=
    congrArg (·.1) hsaved
  rw [← hv]
  exact List.length_modify ..

/-- Two paths that are opened, one of them spelled with a detour, are on distinct files. -/
theorem distinct_until_taken_opened :
    ∃ w v, w.sessions.length = 2 ∧ w.current < w.sessions.length ∧
      w.Distinct Disk.blank.directory ∧ v = w.next ∧
      (v.Distinct Disk.blank.directory ↔ ¬ Takes Disk.blank.directory w v) := by
  let first := (empty.openPath .blank (ascii "a")).1
  let second := (first.openPath .blank (ascii "c/../b")).1
  have hfirst : Move Disk.blank.directory .empty first := .openPath .blank rfl _
  have hsecond : Move Disk.blank.directory first second := .openPath .blank rfl _
  have hrun : Untaken Disk.blank.directory .empty second := by
    refine .tail (.tail .refl ⟨hfirst, fun htakes => ?_⟩) ⟨hsecond, fun htakes => ?_⟩
    · exact absurd htakes.length_eq (by decide)
    · exact absurd htakes.length_eq (by decide)
  have hlength : second.sessions.length = 2 := by decide
  rcases distinct_until_taken Disk.blank.directory with ⟨hcurrent, huntaken, hmove⟩
  have hdistinct := huntaken second hrun
  exact ⟨second, second.next, hlength,
    hcurrent second (.tail (.tail .refl hfirst) hsecond) (by decide), hdistinct, rfl,
    hmove second second.next hdistinct .next⟩

/-- A session that is saved under the name of another one takes its file. -/
theorem write_takes_file :
    ∃ w, Moves Disk.blank.directory .empty w ∧ ¬ w.Distinct Disk.blank.directory := by
  let first := (empty.openPath .blank (ascii "a")).1
  let second := (first.openPath .blank (ascii "b")).1
  have hsecond : Moves Disk.blank.directory .empty second :=
    .tail (.tail .refl (.openPath .blank rfl _)) (.openPath .blank rfl _)
  have htaken : (second.write? .blank (some (ascii "./a"))).any
      (fun v => !decide (v.1.Distinct Disk.blank.directory)) = true := by
    decide +kernel
  rcases hwrite : second.write? .blank (some (ascii "./a")) with _ | v
  · rw [hwrite] at htaken
    cases htaken
  · rw [hwrite, Option.any_some, Bool.not_eq_true', decide_eq_false_iff_not] at htaken
    exact ⟨v.1, hsecond.tail (.write hwrite), htaken⟩

end Workspace

end HexEditor
