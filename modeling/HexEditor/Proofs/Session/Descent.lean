import HexEditor.Proofs.Session.Linear
import HexEditor.Proofs.Session.Turn

/-!
# Which session becomes which

A turn adds at most one session and closes at most one, so every session that is open after
it either has just been opened or was open before, and then it has evolved in one of a few
ways.  To know the version that a session began with, a list of those versions is kept
beside the sessions.

Main results:

- Definition `Session.Evolves` and theorem `Session.Linear.evolves`: what a turn does to one
  session keeps it linear.
- Definition `Session.Advances` and theorem `Session.Linear.advances`: how a session moves
  along its line.
- Definition `Workspace.origin` and theorem `Workspace.Turn.came`: every session after a turn
  is new or has evolved from the one at its origin.
- Definition `Workspace.beginnings`: the versions that the sessions began with.
- Theorem `Workspace.Linear.turn`: a turn keeps all sessions linear.
-/

namespace HexEditor

namespace Session

variable {trips : Trip → Prop} {s t : Session} {start : Rope}

/-! ## One session -/

/-- What one turn does to a session that stays open, if the given trips may be made.  Versions
that are installed are complete. -/
inductive Evolves (s : Session) (trips : Trip → Prop) : Session → Prop where
  /-- The version and the history stay. -/
  | keep {t : Session} (hbuffer : t.buffer = s.buffer) (hhistory : t.history = s.history) :
      s.Evolves trips t
  /-- An edit is installed. -/
  | edit {e : Edited} (hversion : e.buffer.sameVersion e.buffer = true) :
      s.Evolves trips (s.apply s.snapshot e)
  /-- A group is opened. -/
  | beginGroup (hopened : s.history.opened = none) : s.Evolves trips s.beginGroup
  /-- A group is opened and begins with an edit. -/
  | change {e : Edited} (hopened : s.history.opened = none)
      (hversion : e.buffer.sameVersion e.buffer = true) :
      s.Evolves trips (s.beginGroup.apply s.snapshot e)
  /-- The group is closed. -/
  | commitGroup {before : Snapshot} (hopened : s.history.opened = some before) :
      s.Evolves trips s.commitGroup
  /-- The group ends with an edit and is closed. -/
  | finish {e : Edited} {before : Snapshot} (hopened : s.history.opened = some before)
      (hversion : e.buffer.sameVersion e.buffer = true) :
      s.Evolves trips (s.apply s.snapshot e).commitGroup
  /-- Changes are undone. -/
  | undo {t : Session} {count : Nat} (htrip : trips (.back count))
      (hopened : s.history.opened = none) (ht : s.undo? count = some t) : s.Evolves trips t
  /-- Changes are made again. -/
  | redo {t : Session} {count : Nat} (htrip : trips (.forth count))
      (hopened : s.history.opened = none) (ht : s.redo? count = some t) : s.Evolves trips t

theorem Linear.evolves (h : s.Linear start) (ht : s.Evolves trips t) : t.Linear start := by
  cases ht with
  | keep hbuffer hhistory => exact h.of_frame hbuffer hhistory
  | edit hversion => exact h.apply hversion
  | beginGroup _ => exact h.beginGroup
  | change _ hversion => exact h.beginGroup.apply hversion
  | commitGroup _ => exact h.commitGroup
  | finish _ hversion => exact (h.apply hversion).commitGroup
  | undo _ hopened ht =>
      rcases exists_goTimes_of_undo? ht with ⟨k, -, -, hgone⟩
      exact (h.goTimes_undo? hopened hgone).1
  | redo _ hopened ht =>
      rcases exists_goTimes_of_redo? ht with ⟨k, -, -, hgone⟩
      exact (h.goTimes_redo? hopened hgone).1

/-- How a session moves along its line of versions, if the given trips may be made. -/
inductive Advances (s : Session) (trips : Trip → Prop) (t : Session) : Prop where
  /-- It stays where it is, with all changes that can be undone or made again. -/
  | rest (hdone : t.history.done = s.history.done)
      (hundone : t.history.undone = s.history.undone)
      (hpresent : s.present.sameVersion t.present = true)
  /-- A change leads on to another version, and no change can be made again. -/
  | commit (change : Change) (hhistory : t.history = ⟨change :: s.history.done, [], none⟩)
      (hproper : change.Proper)
      (hbefore : s.present.sameVersion change.before.buffer = true)
      (hafter : t.buffer = change.after.buffer)
  /-- Changes are undone one by one, no more than the trip allows. -/
  | undo (count k : Nat) (htrip : trips (.back count)) (hk : 0 < k) (hcount : k ≤ count)
      (hopened : s.history.opened = none)
      (hgone : goTimes History.undo? k s = some t)
  /-- Changes are made again one by one, no more than the trip allows. -/
  | redo (count k : Nat) (htrip : trips (.forth count)) (hk : 0 < k) (hcount : k ≤ count)
      (hopened : s.history.opened = none)
      (hgone : goTimes History.redo? k s = some t)

theorem advances_of_stays (h : s.present.sameVersion s.present = true) (ht : s.Stays t) :
    s.Advances trips t := by
  refine .rest ht.done ht.undone ?_
  rw [ht.present]
  exact h

/-- Closing a group commits a change or leaves the session where it is. -/
theorem advances_commitGroup (h : s.present.sameVersion s.present = true) (ht : s.Stays t) :
    s.Advances trips t.commitGroup := by
  rcases hopened : t.history.opened with _ | before
  · exact advances_of_stays h (ht.trans (stays_commitGroup hopened))
  · have hpresent := ht.present
    rw [present_of_opened hopened] at hpresent
    rcases history_commitGroup hopened with ⟨hsame, hhistory⟩ | ⟨hother, hhistory⟩
    · have hclosed : t.commitGroup.history.opened = none := by rw [hhistory]
      apply Advances.rest
      · rw [hhistory]
        exact ht.done
      · rw [hhistory]
        exact ht.undone
      · rw [present_of_closed hclosed, ← hpresent]
        exact hsame
    · apply Advances.commit ⟨before, t.snapshot⟩
      · rw [hhistory, ht.done]
      · exact hother
      · rw [hpresent]
        exact h
      · rfl

/-- What a turn does to a session moves it along its line. -/
theorem Linear.advances (h : s.Linear start) (ht : s.Evolves trips t) : s.Advances trips t := by
  have hpresent := h.done.version
  cases ht with
  | keep hbuffer hhistory => exact advances_of_stays hpresent (stays_of_frame hbuffer hhistory)
  | @edit e hversion =>
      rcases s.apply_cases e with hstays | ⟨r, hstays, -, heq⟩
      · exact advances_of_stays hpresent hstays
      · rw [heq]
        exact advances_commitGroup hpresent hstays
  | beginGroup _ => exact advances_of_stays hpresent s.stays_beginGroup
  | @change e hopened hversion =>
      have hgroup : s.beginGroup.history.opened = some s.snapshot := by
        rw [opened_beginGroup hopened]
      exact advances_of_stays hpresent
        (s.stays_beginGroup.trans (stays_apply hgroup s.snapshot e))
  | commitGroup _ => exact advances_commitGroup hpresent ⟨rfl, rfl, rfl⟩
  | @finish e before hopened hversion =>
      exact advances_commitGroup hpresent (stays_apply hopened s.snapshot e)
  | @undo t count htrip hopened ht =>
      rcases exists_goTimes_of_undo? ht with ⟨k, hk, hcount, hgone⟩
      exact .undo count k htrip hk hcount hopened hgone
  | @redo t count htrip hopened ht =>
      rcases exists_goTimes_of_redo? ht with ⟨k, hk, hcount, hgone⟩
      exact .redo count k htrip hk hcount hopened hgone

/-- A step that leads to no other version leaves what can be undone and what can be made again
as they were, unless it is a trip of two changes or more. -/
theorem Linear.stacks_eq_of_sameVersion (h : s.Linear start) (ht : s.Advances trips t)
    (hsame : s.present.sameVersion t.present = true) :
    (t.history.done = s.history.done ∧ t.history.undone = s.history.undone) ∨
      ∃ count k, 2 ≤ k ∧ k ≤ count ∧
        (trips (.back count) ∧ goTimes History.undo? k s = some t ∨
          trips (.forth count) ∧ goTimes History.redo? k s = some t) := by
  cases ht with
  | rest hdone hundone _ => exact .inl ⟨hdone, hundone⟩
  | commit change hhistory hproper hbefore hafter =>
      rw [present_of_closed (s := t) (by rw [hhistory]), hafter] at hsame
      have hkept := Rope.sameVersion_trans (Rope.sameVersion_symm hbefore) hsame
      rw [hproper] at hkept
      cases hkept
  | undo count k htrip hk hcount hopened hgone =>
      by_cases hone : k = 1
      · rw [hone, goTimes_succ] at hgone
        rcases h.undo hopened hgone with ⟨-, hclosed, hother⟩
        rw [present_of_closed hopened, present_of_closed hclosed, hother] at hsame
        cases hsame
      · exact .inr ⟨count, k, by omega, hcount, .inl ⟨htrip, hgone⟩⟩
  | redo count k htrip hk hcount hopened hgone =>
      by_cases hone : k = 1
      · rw [hone, goTimes_succ] at hgone
        rcases h.redo hopened hgone with ⟨-, hclosed, hother⟩
        rw [present_of_closed hopened, present_of_closed hclosed, hother] at hsame
        cases hsame
      · exact .inr ⟨count, k, by omega, hcount, .inr ⟨htrip, hgone⟩⟩

end Session

namespace Workspace

variable {directory : Location} {trips : Trip → Prop} {w v : Workspace}
  {editing editing' : Bool}

/-! ## All sessions -/

/-- After an edit the current session is on the new version, which has been marked. -/
theorem exists_current?_applyEdit {s : Session} (hs : w.current? = some s) (before : Snapshot)
    (e : Edited) :
    ∃ t, (w.applyEdit before e).current? = some t ∧
      t.buffer = e.buffer.complete w.nextVersion ∧ t.selections = e.selections :=
  ⟨_, current?_modifyCurrent hs _, Session.buffer_apply _ _ _, Session.selections_apply _ _ _⟩

theorem Grouped.opened_eq_none (h : w.Grouped false) {s : Session}
    (hs : w.current? = some s) : s.history.opened = none :=
  Session.isGrouping_eq_false_iff.1 (h.isGrouping_eq hs)

theorem Grouped.exists_opened (h : w.Grouped true) {s : Session} (hs : w.current? = some s) :
    ∃ before, s.history.opened = some before :=
  Option.isSome_iff_exists.1 (h.isGrouping_eq hs)

/-- The index before a turn of the session that has the given index after it.  A session
that is closed leaves its index to those behind it. -/
def origin (w v : Workspace) (i : Nat) : Nat :=
  if v.sessions.length < w.sessions.length ∧ w.current ≤ i then i + 1 else i

/-- Every session after a turn has just been opened, or has evolved from the one at its
origin. -/
def Came (w : Workspace) (trips : Trip → Prop) (v : Workspace) : Prop :=
  ∀ i t, v.sessions[i]? = some t →
    (w.sessions[w.origin v i]? = none ∧ t.history = .empty ∧
      t.buffer.sameVersion t.buffer = true) ∨
    ∃ s, w.sessions[w.origin v i]? = some s ∧ s.Evolves trips t

theorem origin_of_le {i : Nat} (h : w.sessions.length ≤ v.sessions.length) :
    w.origin v i = i :=
  if_neg fun hclosed => Nat.not_lt.2 h hclosed.1

/-- Nothing has been opened or closed, and every session has evolved at its index. -/
structure InPlace (w : Workspace) (trips : Trip → Prop) (v : Workspace) : Prop where
  length : v.sessions.length = w.sessions.length
  evolves : ∀ (i : Nat) (t : Session), v.sessions[i]? = some t →
    ∃ s : Session, w.sessions[i]? = some s ∧ s.Evolves trips t

theorem InPlace.came (h : w.InPlace trips v) : w.Came trips v := by
  intro i t ht
  rw [origin_of_le (Nat.le_of_eq h.length.symm)]
  exact .inr (h.evolves i t ht)

theorem inPlace_of_sessions_eq (h : v.sessions = w.sessions) : w.InPlace trips v := by
  refine ⟨by rw [h], ?_⟩
  intro i t ht
  rw [h] at ht
  exact ⟨t, ht, .keep rfl rfl⟩

theorem came_of_sessions_eq (h : v.sessions = w.sessions) : w.Came trips v :=
  (inPlace_of_sessions_eq h).came

theorem inPlace_modifyCurrent {f : Session → Session}
    (hf : ∀ s, w.current? = some s → s.Evolves trips (f s)) :
    w.InPlace trips (w.modifyCurrent f) := by
  refine ⟨List.length_modify .., ?_⟩
  intro i t ht
  rw [Workspace.modifyCurrent, List.getElem?_modify] at ht
  rcases Option.map_eq_some_iff.1 ht with ⟨s, hs, hst⟩
  refine ⟨s, hs, ?_⟩
  by_cases hcurrent : w.current = i
  · rw [if_pos hcurrent] at hst
    rw [← hcurrent] at hs
    rw [← hst]
    exact hf s hs
  · rw [if_neg hcurrent] at hst
    rw [← hst]
    exact .keep rfl rfl

theorem inPlace_write {disk : Disk} {path : Option Text}
    {v : Workspace × Disk × FileReport} (hv : w.write? disk path = some v) :
    w.InPlace trips v.1 ∧ v.1.current = w.current := by
  rcases Option.map_eq_some_iff.1 hv with ⟨s, hs, rfl⟩
  refine ⟨inPlace_modifyCurrent ?_, rfl⟩
  intro s' hs'
  rw [hs] at hs'
  cases hs'
  rcases s.save_frame disk path with ⟨hsnapshot, hhistory⟩
  exact .keep (congrArg Snapshot.buffer hsnapshot) hhistory

theorem length_saveEach (written skipped : Nat) (disk : Disk) (sessions : List Session) :
    (saveEach written skipped disk sessions).1.length = sessions.length := by
  induction sessions generalizing written skipped disk with
  | nil => rfl
  | cons s sessions ih =>
      rw [saveEach]
      split
      · simp only [List.length_cons, ih]
      · split
        · simp only [List.length_cons, ih]
        · rfl

/-- The sessions that saving leaves differ from those before it in what they are saved to
alone. -/
theorem getElem?_saveEach {sessions : List Session} {written skipped : Nat} {disk : Disk}
    {i : Nat} {t : Session} (h : (saveEach written skipped disk sessions).1[i]? = some t) :
    ∃ s, sessions[i]? = some s ∧ t.snapshot = s.snapshot ∧ t.history = s.history := by
  induction sessions generalizing written skipped disk i with
  | nil => simp [saveEach] at h
  | cons s sessions ih =>
      have hkept : ∀ {i : Nat}, (s :: sessions)[i]? = some t → ∃ r,
          (s :: sessions)[i]? = some r ∧ t.snapshot = r.snapshot ∧ t.history = r.history :=
        fun hi => ⟨t, hi, rfl, rfl⟩
      have hsaved := s.save_frame disk none
      rw [saveEach] at h
      split at h
      · rcases i with _ | i
        · exact hkept h
        · exact ih h
      · split at h
        · rename_i hsave
          rw [hsave] at hsaved
          rcases i with _ | i
          · cases h
            exact ⟨s, rfl, hsaved⟩
          · exact ih h
        · rename_i hsave
          rw [hsave] at hsaved
          rcases i with _ | i
          · cases h
            exact ⟨s, rfl, hsaved⟩
          · exact hkept h

theorem inPlace_writeAll (w : Workspace) (disk : Disk) : w.InPlace trips (w.writeAll disk).1 := by
  refine ⟨length_saveEach 0 0 disk w.sessions, ?_⟩
  intro i t ht
  rcases getElem?_saveEach ht with ⟨s, hs, hsnapshot, hhistory⟩
  exact ⟨s, hs, .keep (congrArg Snapshot.buffer hsnapshot) hhistory⟩

theorem came_add {s : Session} (hempty : s.history = .empty)
    (hversion : s.buffer.sameVersion s.buffer = true) : w.Came trips (w.add s) := by
  intro i t ht
  have hle : w.sessions.length ≤ (w.add s).sessions.length := by
    rw [add, List.length_append]
    exact Nat.le_add_right _ _
  rw [origin_of_le hle]
  rw [add, List.getElem?_append] at ht
  split_ifs at ht with hi
  · exact .inr ⟨t, ht, .keep rfl rfl⟩
  · rw [List.mem_singleton.1 (List.mem_of_getElem? ht)]
    exact .inl ⟨List.getElem?_eq_none (Nat.not_lt.1 hi), hempty, hversion⟩

theorem came_openPath (w : Workspace) (disk : Disk) (path : Text) :
    w.Came trips (w.openPath disk path).1 := by
  rw [openPath]
  split
  · exact came_of_sessions_eq rfl
  · split_ifs
    · split
      · exact came_of_sessions_eq rfl
      · rename_i bytes _
        have hadd : w.Came trips
            (w.add (.ofFile path ((Rope.ofBytes bytes).complete w.nextVersion))) :=
          came_add rfl (Rope.sameVersion_complete _ _)
        exact hadd
    · exact came_add rfl rfl

/-- What is left after closing has its origin in front of the session that is closed, or
behind it. -/
theorem came_close {force : Bool} {u : Workspace} (h : w.InPlace trips v)
    (hcurrent : v.current = w.current) (hu : v.close? force = .ok u) : w.Came trips u := by
  rw [close?] at hu
  split at hu
  · cases hu
    exact h.came
  · rename_i s hs
    split_ifs at hu
    cases hu
    intro i t ht
    right
    have hlt : v.current < v.sessions.length := (List.getElem?_eq_some_iff.1 hs).1
    have hshorter : (v.sessions.eraseIdx v.current).length < w.sessions.length := by
      rw [List.length_eraseIdx_of_lt hlt, ← h.length]
      omega
    rw [List.getElem?_eraseIdx] at ht
    by_cases hi : i < v.current
    · rw [if_pos hi] at ht
      rw [origin, if_neg fun hclosed => absurd hclosed.2 (by omega)]
      exact h.evolves i t ht
    · rw [if_neg hi] at ht
      rw [origin, if_pos ⟨hshorter, by omega⟩]
      exact h.evolves (i + 1) t ht

theorem modifyCurrent_modifyCurrent (w : Workspace) (f g : Session → Session) :
    (w.modifyCurrent f).modifyCurrent g = w.modifyCurrent (g ∘ f) := by
  simp only [Workspace.modifyCurrent, List.modify_modify_eq]

/-- Only the sessions matter, not the number of the next version. -/
theorem InPlace.of_sessions_eq {u : Workspace} (h : w.InPlace trips v)
    (hu : u.sessions = v.sessions) : w.InPlace trips u := by
  refine ⟨?_, ?_⟩
  · rw [hu]
    exact h.length
  · rw [hu]
    exact h.evolves

/-- Every session after a turn has just been opened, or has evolved from the one at its
origin. -/
theorem Turn.came (h : w.Grouped editing) (hturn : Turn directory trips w editing v editing') :
    w.Came trips v := by
  cases hturn with
  | rest => exact came_of_sessions_eq rfl
  | @select _ s set _ _ =>
      have hplace : w.InPlace trips (w.modifyCurrent fun s => { s with selections := set }) :=
        inPlace_modifyCurrent fun s _ => .keep rfl rfl
      exact hplace.came
  | @edit _ s e hs _ =>
      have hplace : w.InPlace trips (w.modifyCurrent (·.apply s.snapshot
          { e with buffer := e.buffer.complete w.nextVersion })) := by
        apply inPlace_modifyCurrent
        intro s' hs'
        rw [hs] at hs'
        cases hs'
        exact .edit (Rope.sameVersion_complete _ _)
      exact (hplace.of_sessions_eq rfl).came
  | beginGroup =>
      exact (inPlace_modifyCurrent fun s hs => .beginGroup (h.opened_eq_none hs)).came
  | @change s e hs _ =>
      have hplace : w.InPlace trips ((w.modifyCurrent Session.beginGroup).modifyCurrent
          (·.apply s.snapshot { e with buffer := e.buffer.complete w.nextVersion })) := by
        rw [modifyCurrent_modifyCurrent]
        apply inPlace_modifyCurrent
        intro s' hs'
        rw [hs] at hs'
        cases hs'
        exact .change (h.opened_eq_none hs) (Rope.sameVersion_complete _ _)
      exact (hplace.of_sessions_eq rfl).came
  | commitGroup =>
      apply (inPlace_modifyCurrent _).came
      intro s hs
      rcases h.exists_opened hs with ⟨before, hopened⟩
      exact .commitGroup hopened
  | @finish s e hs _ =>
      have hplace : w.InPlace trips ((w.modifyCurrent (·.apply s.snapshot
          { e with buffer := e.buffer.complete w.nextVersion })).modifyCurrent
            Session.commitGroup) := by
        rw [modifyCurrent_modifyCurrent]
        apply inPlace_modifyCurrent
        intro s' hs'
        rw [hs] at hs'
        cases hs'
        rcases h.exists_opened hs with ⟨before, hopened⟩
        exact .finish hopened (Rope.sameVersion_complete _ _)
      exact (hplace.of_sessions_eq rfl).came
  | undo htrip hs ht =>
      apply (inPlace_modifyCurrent _).came
      intro s' hs'
      rw [hs] at hs'
      cases hs'
      exact .undo htrip (h.opened_eq_none hs) ht
  | redo htrip hs ht =>
      apply (inPlace_modifyCurrent _).came
      intro s' hs'
      rw [hs] at hs'
      cases hs'
      exact .redo htrip (h.opened_eq_none hs) ht
  | openPath disk _ path => exact w.came_openPath disk path
  | close hv => exact came_close (inPlace_of_sessions_eq rfl) rfl hv
  | next =>
      rcases w.exists_next_eq with ⟨i, hi⟩
      rw [hi]
      exact came_of_sessions_eq rfl
  | previous =>
      rcases w.exists_previous_eq with ⟨i, hi⟩
      rw [hi]
      exact came_of_sessions_eq rfl
  | write hv => exact (inPlace_write hv).1.came
  | writeAll disk => exact (w.inPlace_writeAll disk).came
  | writeAndClose hv hu =>
      rcases inPlace_write hv with ⟨hplace, hcurrent⟩
      exact came_close hplace hcurrent hu

/-! ## The versions that sessions began with -/

/-- The versions that the sessions began with after a turn, from those before it.  A session
that has just been opened begins with its own version. -/
def beginnings (w v : Workspace) (starts : List Rope) : List Rope :=
  v.sessions.mapIdx fun i t => (starts[w.origin v i]?).getD t.buffer

/-- Every session is linear from the version in the list. -/
structure Linear (w : Workspace) (starts : List Rope) : Prop where
  length : starts.length = w.sessions.length
  linear : ∀ (i : Nat) (s : Session) (start : Rope), w.sessions[i]? = some s →
    starts[i]? = some start → s.Linear start

/-- Sessions without changes are linear from their own versions. -/
theorem linear_of_empty (h : ∀ s ∈ w.sessions, s.history = .empty ∧
    s.buffer.sameVersion s.buffer = true) : w.Linear (w.sessions.map (·.buffer)) := by
  refine ⟨List.length_map .., ?_⟩
  intro i s start hs hstart
  rw [List.getElem?_map, hs] at hstart
  cases hstart
  rcases h s (List.mem_of_getElem? hs) with ⟨hempty, hversion⟩
  exact Session.linear_of_start hversion hempty

/-- A turn keeps all sessions linear. -/
theorem Linear.turn {starts : List Rope} (h : w.Linear starts) (hgrouped : w.Grouped editing)
    (hturn : Turn directory trips w editing v editing') : v.Linear (w.beginnings v starts) := by
  refine ⟨List.length_mapIdx .., ?_⟩
  intro i t start ht hstart
  rw [beginnings, List.getElem?_mapIdx, ht, Option.map_some, Option.some.injEq] at hstart
  rcases hturn.came hgrouped i t ht with ⟨hnone, hempty, hversion⟩ | ⟨s, hs, hevolves⟩
  · have hnew : starts[w.origin v i]? = none := by
      rw [List.getElem?_eq_none_iff] at hnone ⊢
      rw [h.length]
      exact hnone
    rw [hnew] at hstart
    rw [← hstart]
    exact Session.linear_of_start hversion hempty
  · have hlt : w.origin v i < starts.length := by
      rw [h.length]
      exact (List.getElem?_eq_some_iff.1 hs).1
    rw [List.getElem?_eq_getElem hlt] at hstart
    apply Session.Linear.evolves _ hevolves
    exact h.linear _ s start hs (by rw [List.getElem?_eq_getElem hlt, ← hstart]; rfl)

end Workspace

end HexEditor
