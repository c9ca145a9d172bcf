import HexEditor.Proofs.Rope.Identity
import HexEditor.Proofs.Session.Valid

/-!
# Linear histories

The changes that have been made lead, one after the other, from the version a session began
with to the present one, and the changes that have been undone lead on from there.  So
undoing and making again walk along one line of versions, and what one step of the walk
takes back the other brings again.

While a group is open the present version is the one the group began with: what is typed
meanwhile is no part of the line yet.

Main results:

- Definitions `History.LeadsBack` and `History.LeadsForth`: chains of changes.
- Definition `Session.Linear` and theorems `Session.Linear.apply`,
  `Session.Linear.beginGroup`, `Session.Linear.commitGroup`, `Session.Linear.undo` and
  `Session.Linear.redo`: edits, groups, undoing and making again keep to the line.
- Definitions `Session.go` and `Session.goTimes`, and theorems
  `Session.exists_goTimes_of_undo?` and `Session.undo?_of_goTimes`: undoing several changes at
  once is undoing them one by one.
- Theorem `Session.Linear.redo_of_undo_times`: undoing and making again as often.
- Theorem `Session.Linear.undo_all`: undoing every change.
-/

namespace HexEditor

/-! ## Chains of changes -/

/-- The change leads to another version. -/
def Change.Proper (change : Change) : Prop :=
  change.before.buffer.sameVersion change.after.buffer = false

namespace History

/-- The changes, latest first, lead back from the present version to the one at the
start. -/
def LeadsBack (start : Rope) : List Change → Rope → Prop
  | [], present => start.sameVersion present = true
  | change :: earlier, present =>
    change.after.buffer.sameVersion present = true ∧ change.Proper ∧
      LeadsBack start earlier change.before.buffer

/-- The changes, the one undone last first, lead on from the present version to a last
one. -/
def LeadsForth : Rope → List Change → Prop
  | present, [] => present.sameVersion present = true
  | present, change :: later =>
    present.sameVersion change.before.buffer = true ∧ change.Proper ∧
      LeadsForth change.after.buffer later

variable {start present next : Rope} {changes : List Change}

theorem LeadsBack.congr (h : LeadsBack start changes present)
    (hnext : present.sameVersion next = true) : LeadsBack start changes next := by
  cases changes with
  | nil => exact Rope.sameVersion_trans h hnext
  | cons change earlier => exact ⟨Rope.sameVersion_trans h.1 hnext, h.2⟩

theorem LeadsBack.version (h : LeadsBack start changes present) :
    present.sameVersion present = true := by
  cases changes with
  | nil => exact Rope.sameVersion_trans (Rope.sameVersion_symm h) h
  | cons change earlier => exact Rope.sameVersion_trans (Rope.sameVersion_symm h.1) h.1

theorem LeadsForth.congr (h : LeadsForth present changes)
    (hnext : present.sameVersion next = true) : LeadsForth next changes := by
  have hback := Rope.sameVersion_symm hnext
  cases changes with
  | nil => exact Rope.sameVersion_trans hback hnext
  | cons change later => exact ⟨Rope.sameVersion_trans hback h.1, h.2⟩

theorem LeadsForth.version (h : LeadsForth present changes) :
    present.sameVersion present = true := by
  cases changes with
  | nil => exact h
  | cons change later => exact Rope.sameVersion_trans h.1 (Rope.sameVersion_symm h.1)

end History

namespace Session

variable {s t : Session} {start : Rope}

/-! ## Linear sessions -/

/-- The version that the changes have led to: the current one, or while a group is open the
one that the group began with. -/
def present (s : Session) : Rope :=
  (s.history.opened.map (·.buffer)).getD s.buffer

/-- The history of the session is one line of versions from the one it began with. -/
structure Linear (s : Session) (start : Rope) : Prop where
  /-- The current version is complete. -/
  version : s.buffer.sameVersion s.buffer = true
  done : History.LeadsBack start s.history.done s.present
  undone : History.LeadsForth s.present s.history.undone

theorem present_of_opened {before : Snapshot} (h : s.history.opened = some before) :
    s.present = before.buffer := by
  rw [present, h]
  rfl

theorem present_of_closed (h : s.history.opened = none) : s.present = s.buffer := by
  rw [present, h]
  rfl

/-- While no group is open the line goes through the current version. -/
theorem linear_iff_of_closed (hopened : s.history.opened = none) :
    s.Linear start ↔ History.LeadsBack start s.history.done s.buffer ∧
      History.LeadsForth s.buffer s.history.undone := by
  have hpresent := present_of_closed hopened
  constructor
  · intro h
    rw [← hpresent]
    exact ⟨h.done, h.undone⟩
  · rintro ⟨hdone, hundone⟩
    refine ⟨hdone.version, ?_, ?_⟩
    · rw [hpresent]
      exact hdone
    · rw [hpresent]
      exact hundone

/-- A session without changes is at the start of its line. -/
theorem linear_of_start (hversion : s.buffer.sameVersion s.buffer = true)
    (hempty : s.history = .empty) : s.Linear s.buffer := by
  rw [linear_iff_of_closed (by rw [hempty]; rfl), hempty]
  exact ⟨hversion, hversion⟩

/-- The sessions stand at the same place of the same line. -/
structure Stays (s t : Session) : Prop where
  done : t.history.done = s.history.done
  undone : t.history.undone = s.history.undone
  present : t.present = s.present

theorem Stays.trans {u : Session} (h : s.Stays t) (h' : t.Stays u) : s.Stays u :=
  ⟨h'.done.trans h.done, h'.undone.trans h.undone, h'.present.trans h.present⟩

/-- A session that stays where it is on its line is linear if its version is complete. -/
theorem Linear.of_stays (h : s.Linear start) (ht : s.Stays t)
    (hversion : t.buffer.sameVersion t.buffer = true) : t.Linear start := by
  refine ⟨hversion, ?_, ?_⟩
  · rw [ht.done, ht.present]
    exact h.done
  · rw [ht.undone, ht.present]
    exact h.undone

/-- Selections, the path and the saved version are no part of the line. -/
theorem stays_of_frame (hbuffer : t.buffer = s.buffer) (hhistory : t.history = s.history) :
    s.Stays t :=
  ⟨by rw [hhistory], by rw [hhistory], by rw [present, present, hbuffer, hhistory]⟩

theorem Linear.of_frame (h : s.Linear start) (hbuffer : t.buffer = s.buffer)
    (hhistory : t.history = s.history) : t.Linear start := by
  apply h.of_stays (stays_of_frame hbuffer hhistory)
  rw [hbuffer]
  exact h.version

/-! ## Groups and edits -/

theorem opened_beginGroup (h : s.history.opened = none) :
    s.beginGroup.history = { s.history with opened := some s.snapshot } := by
  simp only [Session.beginGroup, History.beginGroup, h]

/-- Opening a group leaves a session where it is on its line. -/
theorem stays_beginGroup (s : Session) : s.Stays s.beginGroup := by
  rcases hopened : s.history.opened with _ | before
  · have hhistory := opened_beginGroup hopened
    refine ⟨by rw [hhistory], by rw [hhistory], ?_⟩
    rw [present_of_closed hopened, present_of_opened (by rw [hhistory])]
    rfl
  · refine stays_of_frame rfl ?_
    simp only [Session.beginGroup, History.beginGroup, hopened]

/-- While a group is open an edit leaves the history. -/
theorem history_apply {before : Snapshot} (hopened : s.history.opened = some before)
    (p : Snapshot) (e : Edited) : (s.apply p e).history = s.history := by
  simp only [Session.apply, History.isGrouping, hopened, Option.isSome_some, if_true]

theorem stays_apply {before : Snapshot} (hopened : s.history.opened = some before)
    (p : Snapshot) (e : Edited) : s.Stays (s.apply p e) := by
  have hhistory := history_apply hopened p e
  refine ⟨by rw [hhistory], by rw [hhistory], ?_⟩
  rw [present_of_opened hopened]
  apply present_of_opened
  rw [hhistory]
  exact hopened

theorem Linear.beginGroup (h : s.Linear start) : s.beginGroup.Linear start :=
  h.of_stays s.stays_beginGroup h.version

/-- Closing a group where none is open leaves a session where it is. -/
theorem stays_commitGroup (h : s.history.opened = none) : s.Stays s.commitGroup := by
  refine stays_of_frame rfl ?_
  simp only [Session.commitGroup, History.commitGroup, h]

/-- What closing a group does to the history: nothing new has come about, or a change. -/
theorem history_commitGroup {before : Snapshot} (h : s.history.opened = some before) :
    (before.buffer.sameVersion s.buffer = true ∧
        s.commitGroup.history = { s.history with opened := none }) ∨
      (before.buffer.sameVersion s.buffer = false ∧
        s.commitGroup.history = ⟨⟨before, s.snapshot⟩ :: s.history.done, [], none⟩) := by
  simp only [commitGroup, History.commitGroup, h]
  by_cases hsame : before.buffer.sameVersion s.buffer = true
  · exact .inl ⟨hsame, if_pos hsame⟩
  · exact .inr ⟨Bool.eq_false_iff.2 hsame, if_neg hsame⟩

theorem Linear.commitGroup (h : s.Linear start) : s.commitGroup.Linear start := by
  rcases hopened : s.history.opened with _ | before
  · exact h.of_stays (stays_commitGroup hopened) h.version
  · have hdone := h.done
    have hundone := h.undone
    rw [present_of_opened hopened] at hdone hundone
    rcases history_commitGroup hopened with ⟨hsame, hhistory⟩ | ⟨hother, hhistory⟩
    · rw [linear_iff_of_closed (by rw [hhistory]), hhistory]
      exact ⟨hdone.congr hsame, hundone.congr hsame⟩
    · rw [linear_iff_of_closed (by rw [hhistory]), hhistory]
      exact ⟨⟨h.version, hother, hdone⟩, h.version⟩

theorem buffer_apply (s : Session) (p : Snapshot) (e : Edited) :
    (s.apply p e).buffer = e.buffer := by
  rw [Session.apply]
  split_ifs <;> rfl

theorem selections_apply (s : Session) (p : Snapshot) (e : Edited) :
    (s.apply p e).selections = e.selections := by
  rw [Session.apply]
  split_ifs <;> rfl

/-- Outside a group an edit is a group of its own. -/
theorem apply_eq_commitGroup (h : s.history.opened = none) (e : Edited) :
    s.apply s.snapshot e = (s.beginGroup.apply s.snapshot e).commitGroup := by
  have hgrouping : s.history.isGrouping = false := by
    rw [History.isGrouping, h]
    rfl
  have hbegun : (s.history.beginGroup s.snapshot).isGrouping = true := by
    simp only [History.beginGroup, h]
    rfl
  simp only [apply, hgrouping, Bool.false_eq_true, if_false, History.record,
    Session.beginGroup, hbegun, if_true, Session.commitGroup]
  rfl

/-- An edit leaves a session where it is on its line, or does so within a group that is then
closed. -/
theorem apply_cases (s : Session) (e : Edited) :
    s.Stays (s.apply s.snapshot e) ∨
      ∃ t : Session, s.Stays t ∧ t.buffer = e.buffer ∧ s.apply s.snapshot e = t.commitGroup := by
  rcases hopened : s.history.opened with _ | before
  · have hbegun : s.beginGroup.history.opened = some s.snapshot := by
      rw [opened_beginGroup hopened]
    exact .inr ⟨_, s.stays_beginGroup.trans (stays_apply hbegun s.snapshot e),
      buffer_apply _ _ _, apply_eq_commitGroup hopened e⟩
  · exact .inl (stays_apply hopened s.snapshot e)

/-- What does not change where a session stays on its line, nor where a group is closed, does
not change with an edit. -/
theorem apply_induction {P : Session → Prop}
    (hstays : ∀ {s t : Session}, P s → s.Stays t → t.buffer.sameVersion t.buffer = true → P t)
    (hcommit : ∀ {s : Session}, P s → P s.commitGroup) (h : P s) {e : Edited}
    (hversion : e.buffer.sameVersion e.buffer = true) : P (s.apply s.snapshot e) := by
  rcases s.apply_cases e with hs | ⟨t, hs, hbuffer, heq⟩
  · apply hstays h hs
    rw [buffer_apply]
    exact hversion
  · rw [heq]
    apply hcommit (hstays h hs _)
    rw [hbuffer]
    exact hversion

theorem Linear.apply (h : s.Linear start) {e : Edited}
    (hversion : e.buffer.sameVersion e.buffer = true) : (s.apply s.snapshot e).Linear start :=
  apply_induction Linear.of_stays Linear.commitGroup h hversion

/-! ## Steps back and forth -/

section Steps

variable (step : History → Option (Snapshot × History))

/-- Take one step along the history, to the state that it leads to. -/
def go (s : Session) : Option Session :=
  (step s.history).map fun p => { s with history := p.2 }.restore p.1

/-- Take several steps, one by one. -/
def goTimes : Nat → Session → Option Session
  | 0, s => some s
  | k + 1, s => (s.go step).bind (goTimes k)

/-- Take at most `count` steps without going to the states in between: the last state, the
history then, and how many steps there were. -/
def steps (history : History) (current : Snapshot) : Nat → Snapshot × History × Nat
  | 0 => (current, history, 0)
  | count + 1 =>
    match step history with
    | none => (current, history, 0)
    | some (snapshot, history) =>
      let (last, history, taken) := steps history snapshot count
      (last, history, taken + 1)

theorem undoSteps_eq (history : History) (current : Snapshot) (count : Nat) :
    undoSteps history current count = steps History.undo? history current count := by
  induction count generalizing history current with
  | zero => rfl
  | succ count ih =>
      rw [undoSteps, steps]
      rcases history.undo? with _ | ⟨snapshot, earlier⟩
      · rfl
      · simp only [ih]

theorem redoSteps_eq (history : History) (current : Snapshot) (count : Nat) :
    redoSteps history current count = steps History.redo? history current count := by
  induction count generalizing history current with
  | zero => rfl
  | succ count ih =>
      rw [redoSteps, steps]
      rcases history.redo? with _ | ⟨snapshot, later⟩
      · rfl
      · simp only [ih]

variable {step}

theorem goTimes_add (k l : Nat) (s : Session) :
    goTimes step (k + l) s = (goTimes step k s).bind (goTimes step l) := by
  induction k generalizing s with
  | zero => rw [Nat.zero_add, goTimes, Option.bind_some]
  | succ k ih =>
      rw [Nat.succ_add_eq_add_succ, Nat.add_succ, goTimes, goTimes, Option.bind_assoc]
      exact congrArg _ (funext ih)

theorem goTimes_one : goTimes step 1 = go step :=
  funext fun s => Option.bind_fun_some (s.go step)

theorem goTimes_succ (k : Nat) (s : Session) :
    goTimes step (k + 1) s = (goTimes step k s).bind (go step) := by
  rw [goTimes_add, goTimes_one]

theorem steps_eq_zero {history last : History} {current p : Snapshot} {count : Nat}
    (h : steps step history current count = (p, last, 0)) :
    p = current ∧ last = history := by
  rcases count with _ | count
  · cases h
    exact ⟨rfl, rfl⟩
  · rw [steps] at h
    rcases hstep : step history with _ | ⟨snapshot, next⟩
    · rw [hstep] at h
      cases h
      exact ⟨rfl, rfl⟩
    · rw [hstep] at h
      simp only [Prod.mk.injEq] at h
      omega

/-- Steps that are taken at once are steps taken one by one. -/
theorem goTimes_steps {last : History} {current p : Snapshot} {count taken : Nat}
    (h : steps step s.history current count = (p, last, taken)) (htaken : 0 < taken) :
    goTimes step taken s = some ({ s with history := last }.restore p) ∧ taken ≤ count := by
  induction count generalizing s current taken with
  | zero =>
      cases h
      cases htaken
  | succ count ih =>
      rw [steps] at h
      rcases hstep : step s.history with _ | ⟨snapshot, next⟩
      · rw [hstep] at h
        cases h
        cases htaken
      · rw [hstep] at h
        rcases hrest : steps step next snapshot count with ⟨q, end', others⟩
        simp only [hrest, Prod.mk.injEq] at h
        rcases h with ⟨rfl, rfl, rfl⟩
        have hgo : s.go step = some ({ s with history := next }.restore snapshot) := by
          rw [go, hstep]
          rfl
        rw [goTimes, hgo, Option.bind_some]
        rcases others with _ | others
        · rcases steps_eq_zero hrest with ⟨rfl, rfl⟩
          exact ⟨rfl, Nat.succ_le_succ (Nat.zero_le _)⟩
        · rcases ih (s := { s with history := next }.restore snapshot) hrest
            (Nat.succ_pos _) with ⟨hgone, hle⟩
          exact ⟨hgone, Nat.succ_le_succ hle⟩

/-- Steps that can be taken one by one can be taken at once. -/
theorem steps_of_goTimes {k : Nat} (hk : 0 < k) (h : goTimes step k s = some t)
    (current : Snapshot) : ∃ p last, steps step s.history current k = (p, last, k) ∧
      t = { s with history := last }.restore p := by
  induction k generalizing s current with
  | zero => cases hk
  | succ k ih =>
      rw [goTimes, Option.bind_eq_some_iff] at h
      rcases h with ⟨next, hnext, hrest⟩
      rcases Option.map_eq_some_iff.1 hnext with ⟨⟨snapshot, history⟩, hstep, rfl⟩
      rcases k with _ | k
      · cases hrest
        refine ⟨snapshot, history, ?_, rfl⟩
        rw [steps, hstep]
        rfl
      · rcases ih (Nat.succ_pos k) hrest snapshot with ⟨p, last, htaken, rfl⟩
        refine ⟨p, last, ?_, rfl⟩
        change steps step history snapshot (k + 1) = (p, last, k + 1) at htaken
        rw [steps, hstep]
        simp only [htaken]

end Steps

/-- Undoing changes at once is undoing them one by one. -/
theorem exists_goTimes_of_undo? {count : Nat} (h : s.undo? count = some t) :
    ∃ k, 0 < k ∧ k ≤ count ∧ goTimes History.undo? k s = some t := by
  rcases hsteps : undoSteps s.history s.snapshot count with ⟨p, last, taken⟩
  simp only [undo?, hsteps, Option.ite_none_left_eq_some, Option.some.injEq] at h
  rcases h with ⟨htaken, rfl⟩
  rw [undoSteps_eq] at hsteps
  rcases goTimes_steps hsteps (Nat.pos_of_ne_zero htaken) with ⟨hgone, hle⟩
  exact ⟨taken, Nat.pos_of_ne_zero htaken, hle, hgone⟩

/-- Making changes again at once is making them again one by one. -/
theorem exists_goTimes_of_redo? {count : Nat} (h : s.redo? count = some t) :
    ∃ k, 0 < k ∧ k ≤ count ∧ goTimes History.redo? k s = some t := by
  rcases hsteps : redoSteps s.history s.snapshot count with ⟨p, last, taken⟩
  simp only [redo?, hsteps, Option.ite_none_left_eq_some, Option.some.injEq] at h
  rcases h with ⟨htaken, rfl⟩
  rw [redoSteps_eq] at hsteps
  rcases goTimes_steps hsteps (Nat.pos_of_ne_zero htaken) with ⟨hgone, hle⟩
  exact ⟨taken, Nat.pos_of_ne_zero htaken, hle, hgone⟩

theorem undo?_of_goTimes {k : Nat} (hk : 0 < k)
    (h : goTimes History.undo? k s = some t) : s.undo? k = some t := by
  rcases steps_of_goTimes hk h s.snapshot with ⟨p, last, htaken, rfl⟩
  rw [← undoSteps_eq] at htaken
  simp only [undo?, htaken, Nat.ne_of_gt hk, if_false]

theorem redo?_of_goTimes {k : Nat} (hk : 0 < k)
    (h : goTimes History.redo? k s = some t) : s.redo? k = some t := by
  rcases steps_of_goTimes hk h s.snapshot with ⟨p, last, htaken, rfl⟩
  rw [← redoSteps_eq] at htaken
  simp only [redo?, htaken, Nat.ne_of_gt hk, if_false]

/-! ## Walking along the line -/

theorem of_go_undo? (h : s.go History.undo? = some t) :
    ∃ change earlier, s.history.done = change :: earlier ∧
      t.buffer = change.before.buffer ∧
      t.history = ⟨earlier, change :: s.history.undone, s.history.opened⟩ := by
  rcases hdone : s.history.done with _ | ⟨change, earlier⟩
  · simp only [go, History.undo?, hdone, Option.map_none] at h
    cases h
  · simp only [go, History.undo?, hdone, Option.map_some] at h
    cases h
    exact ⟨change, earlier, rfl, rfl, rfl⟩

theorem of_go_redo? (h : s.go History.redo? = some t) :
    ∃ change later, s.history.undone = change :: later ∧
      t.buffer = change.after.buffer ∧
      t.history = ⟨change :: s.history.done, later, s.history.opened⟩ := by
  rcases hundone : s.history.undone with _ | ⟨change, later⟩
  · simp only [go, History.redo?, hundone, Option.map_none] at h
    cases h
  · simp only [go, History.redo?, hundone, Option.map_some] at h
    cases h
    exact ⟨change, later, rfl, rfl, rfl⟩

/-- Undoing one change keeps to the line and leads to another version. -/
theorem Linear.undo (h : s.Linear start) (hopened : s.history.opened = none)
    (ht : s.go History.undo? = some t) :
    t.Linear start ∧ t.history.opened = none ∧ s.buffer.sameVersion t.buffer = false := by
  rcases of_go_undo? ht with ⟨change, earlier, hdone, hbuffer, hhistory⟩
  rcases (linear_iff_of_closed hopened).1 h with ⟨hback, hforth⟩
  rw [hdone] at hback
  rcases hback with ⟨hafter, hproper, hback⟩
  have hclosed : t.history.opened = none := by
    rw [hhistory]
    exact hopened
  refine ⟨?_, hclosed, ?_⟩
  · rw [linear_iff_of_closed hclosed, hhistory, hbuffer]
    exact ⟨hback, hback.version, hproper, hforth.congr (Rope.sameVersion_symm hafter)⟩
  · rw [hbuffer, Bool.eq_false_iff]
    intro hsame
    have hkept := Rope.sameVersion_symm (Rope.sameVersion_trans hafter hsame)
    rw [hproper] at hkept
    cases hkept

/-- Making one change again keeps to the line and leads to another version. -/
theorem Linear.redo (h : s.Linear start) (hopened : s.history.opened = none)
    (ht : s.go History.redo? = some t) :
    t.Linear start ∧ t.history.opened = none ∧ s.buffer.sameVersion t.buffer = false := by
  rcases of_go_redo? ht with ⟨change, later, hundone, hbuffer, hhistory⟩
  rcases (linear_iff_of_closed hopened).1 h with ⟨hback, hforth⟩
  rw [hundone] at hforth
  rcases hforth with ⟨hbefore, hproper, hforth⟩
  have hclosed : t.history.opened = none := by
    rw [hhistory]
    exact hopened
  refine ⟨?_, hclosed, ?_⟩
  · rw [linear_iff_of_closed hclosed, hhistory, hbuffer]
    exact ⟨⟨hforth.version, hproper, hback.congr hbefore⟩, hforth⟩
  · rw [hbuffer, Bool.eq_false_iff]
    intro hsame
    have hkept := Rope.sameVersion_trans (Rope.sameVersion_symm hbefore) hsame
    rw [hproper] at hkept
    cases hkept

/-- A change that has been undone is made again wherever the history is the one that undoing
it has left. -/
theorem Linear.redo_of_undo {u : Session} (h : s.Linear start)
    (hopened : s.history.opened = none) (ht : s.go History.undo? = some t)
    (hu : u.history = t.history) :
    ∃ v, u.go History.redo? = some v ∧ v.history = s.history ∧
      v.buffer.sameVersion s.buffer = true := by
  rcases of_go_undo? ht with ⟨change, earlier, hdone, -, hhistory⟩
  rcases (linear_iff_of_closed hopened).1 h with ⟨hback, -⟩
  rw [hdone] at hback
  rw [hhistory] at hu
  have hredo : u.history.redo? =
      some (change.after, ⟨change :: earlier, s.history.undone, s.history.opened⟩) := by
    rw [hu]
    rfl
  have hs : (⟨change :: earlier, s.history.undone, s.history.opened⟩ : History) = s.history := by
    rw [← hdone]
  rw [go, hredo, hs]
  exact ⟨_, rfl, rfl, hback.1⟩

/-! ## Walking several steps -/

theorem goTimes_eq_some_succ {step : History → Option (Snapshot × History)} {k : Nat} :
    goTimes step (k + 1) s = some t ↔
      ∃ next, s.go step = some next ∧ goTimes step k next = some t := by
  rw [goTimes, Option.bind_eq_some_iff]

/-- So many changes can be undone one by one. -/
theorem exists_goTimes_undo? {k : Nat} (hk : k ≤ s.history.depth) :
    ∃ t, goTimes History.undo? k s = some t := by
  induction k generalizing s with
  | zero => exact ⟨s, rfl⟩
  | succ k ih =>
      rcases hdone : s.history.done with _ | ⟨change, earlier⟩
      · rw [History.depth, hdone] at hk
        cases hk
      · have hundo : s.history.undo? =
            some (change.before, ⟨earlier, change :: s.history.undone, s.history.opened⟩) := by
          simp only [History.undo?, hdone]
        rw [History.depth, hdone] at hk
        simp only [goTimes, go, hundo, Option.map_some, Option.bind_some]
        exact ih (Nat.le_of_succ_le_succ hk)

/-- Every change that is undone is one change less that can be undone. -/
theorem depth_goTimes_undo? {k : Nat} (ht : goTimes History.undo? k s = some t) :
    t.history.depth + k = s.history.depth := by
  induction k generalizing s with
  | zero =>
      cases ht
      rfl
  | succ k ih =>
      rcases goTimes_eq_some_succ.1 ht with ⟨next, hnext, hrest⟩
      rcases of_go_undo? hnext with ⟨change, earlier, hdone, -, hhistory⟩
      have hstep : next.history.depth + 1 = s.history.depth := by
        rw [History.depth, History.depth, hhistory, hdone, List.length_cons]
      have hothers := ih hrest
      omega

/-- Undoing changes one by one keeps to the line. -/
theorem Linear.goTimes_undo? {k : Nat} (h : s.Linear start)
    (hopened : s.history.opened = none) (ht : goTimes History.undo? k s = some t) :
    t.Linear start ∧ t.history.opened = none := by
  induction k generalizing s with
  | zero =>
      cases ht
      exact ⟨h, hopened⟩
  | succ k ih =>
      rcases goTimes_eq_some_succ.1 ht with ⟨next, hnext, hrest⟩
      rcases h.undo hopened hnext with ⟨hlinear, hclosed, -⟩
      exact ih hlinear hclosed hrest

theorem Linear.goTimes_redo? {k : Nat} (h : s.Linear start)
    (hopened : s.history.opened = none) (ht : goTimes History.redo? k s = some t) :
    t.Linear start ∧ t.history.opened = none := by
  induction k generalizing s with
  | zero =>
      cases ht
      exact ⟨h, hopened⟩
  | succ k ih =>
      rcases goTimes_eq_some_succ.1 ht with ⟨next, hnext, hrest⟩
      rcases h.redo hopened hnext with ⟨hlinear, hclosed, -⟩
      exact ih hlinear hclosed hrest

/-- Making changes again as often as some have been undone brings back the version and the
whole history.  The change that was undone first is made again last, so the induction takes
the last step of making again off. -/
theorem Linear.redo_of_undo_times {k : Nat} (h : s.Linear start)
    (hopened : s.history.opened = none) (ht : goTimes History.undo? k s = some t) :
    ∃ u, goTimes History.redo? k t = some u ∧ u.history = s.history ∧
      u.buffer.sameVersion s.buffer = true := by
  induction k generalizing s with
  | zero =>
      cases ht
      exact ⟨_, rfl, rfl, h.version⟩
  | succ k ih =>
      rcases goTimes_eq_some_succ.1 ht with ⟨next, hnext, hrest⟩
      rcases h.undo hopened hnext with ⟨hlinear, hclosed, -⟩
      rcases ih hlinear hclosed hrest with ⟨u, hu, hhistory, -⟩
      rcases h.redo_of_undo hopened hnext hhistory with ⟨v, hv, hback, hsame⟩
      refine ⟨v, ?_, hback, hsame⟩
      rw [goTimes_succ, hu]
      exact hv

/-- Undoing every change leads to the version that the session began with. -/
theorem Linear.undo_all (h : s.Linear start) (hopened : s.history.opened = none)
    (ht : goTimes History.undo? s.history.depth s = some t) :
    start.sameVersion t.buffer = true := by
  rcases h.goTimes_undo? hopened ht with ⟨hlinear, hclosed⟩
  have hdepth := depth_goTimes_undo? ht
  have hback := ((linear_iff_of_closed hclosed).1 hlinear).1
  have hnone : t.history.done = [] := by
    rw [← List.length_eq_zero_iff]
    rw [Nat.add_eq_right] at hdepth
    exact hdepth
  rw [hnone] at hback
  exact hback

end Session

end HexEditor
