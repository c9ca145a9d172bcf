import HexEditor.Proofs.Editor.Faults
import HexEditor.Proofs.Selection.Normal
import HexEditor.Proofs.Session.Descent

/-!
# Typing is one change

Some commands begin to insert or to replace bytes.  All that is typed from then on, until
commands are read again, is collected in one group, so it is undone as a whole: undoing it
gives back the version and the selections from before the command, and if it has led back to
that version there is nothing to undo.

Main results:

- Theorems `Workspace.Turn.begins`, `Workspace.Turn.types` and `Workspace.Turn.ends`: what
  turns do to the group of the current session.
- Definition `Editor.Typing` and theorem `Editor.Typing.history`: keys that are pressed while
  bytes are being typed.
- Definition `Editor.entryKeys` and theorem `Editor.exists_press_of_mem_entryKeys`: the
  commands that begin to type bytes.
- Theorem `Editor.typing_is_one_change`: the whole is one change.
-/

namespace HexEditor

/-! ## The group of the current session -/

namespace Workspace

variable {directory : Location} {trips : Trip → Prop} {w v : Workspace} {s : Session}
  {before : Snapshot}

/-- Beginning to type opens a group in the current session. -/
theorem Turn.begins (h : Turn directory trips w false v true) (hs : w.current? = some s)
    (hopened : s.history.opened = none) :
    v.current = w.current ∧
      ∃ t : Session, v.current? = some t ∧
        t.history = { s.history with opened := some s.snapshot } := by
  have hbegun := Session.opened_beginGroup hopened
  cases h with
  | beginGroup => exact ⟨rfl, _, current?_modifyCurrent hs _, hbegun⟩
  | @change s' e hs' _ =>
      rw [hs] at hs'
      cases hs'
      have hgroup : s.beginGroup.history.opened = some s.snapshot := by rw [hbegun]
      refine ⟨rfl, _, current?_modifyCurrent (current?_modifyCurrent hs _) _, ?_⟩
      rw [Session.history_apply hgroup, hbegun]

/-- While bytes are being typed the group stays open. -/
theorem Turn.types (h : Turn directory trips w true v true) (hs : w.current? = some s)
    (hopened : s.history.opened = some before) :
    v.current = w.current ∧ ∃ t : Session, v.current? = some t ∧ t.history = s.history := by
  cases h with
  | rest => exact ⟨rfl, s, hs, rfl⟩
  | select _ _ _ => exact ⟨rfl, _, current?_modifyCurrent hs _, rfl⟩
  | edit _ _ _ => exact ⟨rfl, _, current?_modifyCurrent hs _, Session.history_apply hopened _ _⟩

/-- Ceasing to type closes the group. -/
theorem Turn.ends (h : Turn directory trips w true v false) (hs : w.current? = some s)
    (hopened : s.history.opened = some before) :
    v.current = w.current ∧
      ∃ t : Session, v.current? = some t.commitGroup ∧ t.history = s.history := by
  cases h with
  | commitGroup => exact ⟨rfl, s, current?_modifyCurrent hs _, rfl⟩
  | finish _ _ =>
      exact ⟨rfl, _, current?_modifyCurrent (current?_modifyCurrent hs _) _,
        Session.history_apply hopened _ _⟩

end Workspace

namespace Editor

variable {ed ed' last : Editor} {s : Session} {keys : List Key}

/-! ## Typing -/

/-- The keys lead from one state to the other, and bytes are being typed whenever one of
them is pressed. -/
inductive Typing : Editor → List Key → Editor → Prop where
  /-- No key is pressed. -/
  | nil (ed : Editor) : Typing ed [] ed
  /-- A key is pressed, and then the others. -/
  | cons {ed next last : Editor} {key : Key} {keys : List Key}
      (hediting : ed.mode.isEditing = true) (pressed : ed.press key = .ok next)
      (rest : Typing next keys last) : Typing ed (key :: keys) last

/-- While bytes are typed the editor stays as it was, but for the current session, whose
history stays, and the count stays too. -/
theorem Typing.history {before : Snapshot} (h : ed.Typing keys last)
    (hediting : ed.mode.isEditing = true) (hs : ed.workspace.current? = some s)
    (hopened : s.history.opened = some before) :
    last.workspace.current = ed.workspace.current ∧ last.count = ed.count ∧
      last.quit = ed.quit ∧ ∃ t : Session, t.history = s.history ∧
        last.workspace.current? = some (if last.mode.isEditing then t else t.commitGroup) := by
  induction h generalizing s with
  | nil ed =>
      refine ⟨rfl, rfl, rfl, s, rfl, ?_⟩
      rw [if_pos hediting]
      exact hs
  | @cons ed next last key keys _ pressed rest ih =>
      have hfollows := followsTo_press ed key next pressed
      have hturn := hfollows.turn
      have hcount := hfollows.count hediting
      rw [hediting] at hturn
      by_cases hnext : next.mode.isEditing = true
      · rw [hnext] at hturn
        rcases hturn.types hs hopened with ⟨hcurrent, t, ht, hhistory⟩
        rcases ih hnext ht (by rw [hhistory]; exact hopened) with
          ⟨hcurrent', hcount', hquit', u, hu, hlast⟩
        exact ⟨hcurrent'.trans hcurrent, hcount'.trans hcount,
          hquit'.trans (hfollows.quit_eq ht), u, hu.trans hhistory, hlast⟩
      · -- commands are read again, so no further key is typed
        rw [Bool.not_eq_true] at hnext
        rw [hnext] at hturn
        rcases hturn.ends hs hopened with ⟨hcurrent, t, ht, hhistory⟩
        cases rest with
        | cons hediting' _ _ =>
            rw [hnext] at hediting'
            cases hediting'
        | nil =>
            refine ⟨hcurrent, hcount, hfollows.quit_eq ht, t, hhistory, ?_⟩
            rw [hnext]
            exact ht

/-! ## Keys that begin to type -/

/-- A character that is no digit of a count and no movement is a command. -/
theorem press_plain_eq_command {c : Int} (hquit : ed.quit = false) (hmode : ed.mode = .normal)
    (hs : ed.workspace.current? = some s) (hcount : countKey? ed.count (.plain c) = none)
    (hmove : movement?.letterMovement? ed.view.width c = none) :
    ed.press (.plain c) = { ed with count := .empty, notice := .blank }.command s c
      (ed.count.valueOr 1) ed.count.typed := by
  have hnormal : ed.press (.plain c) = ed.pressNormal s (.plain c) := by
    simp only [press, hquit, Bool.false_eq_true, if_false, hs]
    rw [hmode]
  have hmoved : ∀ count, { ed with count := Count.empty, notice := .blank }.move? s (.plain c)
      count true = none := fun _ => congrArg _ hmove
  rw [hnormal, pressNormal, hcount, if_neg (by intro h; cases h)]
  dsimp only
  rw [hmoved]
  rfl

/-- The commands that begin to insert or to replace bytes. -/
def entryKeys : List Char := ['i', 'I', 'a', 'A', 'c', 'C', 'r', 'R']

theorem letterMovement?_of_mem_entryKeys {c : Char} (hc : c ∈ entryKeys) (width : Nat) :
    movement?.letterMovement? width (code c) = none := by
  simp only [entryKeys, List.mem_cons, List.not_mem_nil, or_false] at hc
  rcases hc with rfl | rfl | rfl | rfl | rfl | rfl | rfl | rfl <;> rfl

/-- None of the commands is a digit where no count is pending. -/
theorem digit?_empty_of_mem_entryKeys {c : Char} (hc : c ∈ entryKeys) :
    Count.empty.digit? (code c) = none := by
  simp only [entryKeys, List.mem_cons, List.not_mem_nil, or_false] at hc
  rcases hc with rfl | rfl | rfl | rfl | rfl | rfl | rfl | rfl <;> rfl

/-- None of the commands changes the base of a count. -/
theorem countKey?_of_mem_entryKeys {c : Char} (hc : c ∈ entryKeys) {count : Count}
    (hcount : count.digit? (code c) = none) : countKey? count (.plain (code c)) = none := by
  have htoggle : code c ≠ code 'x' := by
    simp only [entryKeys, List.mem_cons, List.not_mem_nil, or_false] at hc
    rcases hc with rfl | rfl | rfl | rfl | rfl | rfl | rfl | rfl <;> decide
  simp only [countKey?, Key.plain, Key.plain?, Option.bind_some, hcount, if_neg htoggle]

/-- Cutting stays in the mode and keeps the count. -/
theorem mode_count_of_cut (h : ed.cut s = .ok ed') :
    ed'.mode = ed.mode ∧ ed'.count = ed.count := by
  rw [cut] at h
  rcases hcopy : ed.copy s with fault | copied
  · rw [hcopy] at h
    cases h
  · rcases exists_registers_of_copy hcopy with ⟨registers, rfl⟩
    rw [hcopy] at h
    rcases hdelete : s.buffer.delete s.selections with error | e
    · rw [hdelete] at h
      cases h
    · rw [hdelete] at h
      cases h
      exact ⟨rfl, rfl⟩

theorem exists_command_of_mem_entryKeys {c : Char} (hc : c ∈ entryKeys) (h : s.Valid)
    (ed : Editor) (count : Nat) (typed : Bool) :
    ∃ begun, ed.command s (code c) count typed = .ok begun ∧
      begun.mode.isEditing = true ∧ begun.count = ed.count := by
  have hchange : ∀ encoding, ∃ begun,
      (ed.beginInsert encoding .before).cut s.beginGroup = .ok begun ∧
        begun.mode.isEditing = true ∧ begun.count = ed.count := by
    intro encoding
    rcases succeeds_cut (ed.beginInsert encoding .before) h.beginGroup with ⟨begun, hbegun⟩
    rcases mode_count_of_cut hbegun with ⟨hmode, hcount⟩
    refine ⟨begun, hbegun, ?_, hcount⟩
    rw [hmode]
    rfl
  simp only [entryKeys, List.mem_cons, List.not_mem_nil, or_false] at hc
  rcases hc with rfl | rfl | rfl | rfl | rfl | rfl | rfl | rfl
  · exact ⟨_, rfl, rfl, rfl⟩
  · exact ⟨_, rfl, rfl, rfl⟩
  · exact ⟨_, rfl, rfl, rfl⟩
  · exact ⟨_, rfl, rfl, rfl⟩
  · exact hchange .ascii
  · exact hchange .hex
  · exact ⟨_, rfl, rfl, rfl⟩
  · exact ⟨_, rfl, rfl, rfl⟩

/-- Where commands are read, each of these begins to type, in a group that is opened on the
session as it is. -/
theorem exists_press_of_mem_entryKeys {c : Char} (h : ed.Reachable) (hmode : ed.mode = .normal)
    (hquit : ed.quit = false) (hs : ed.workspace.current? = some s) (hc : c ∈ entryKeys)
    (hcount : ed.count.digit? (code c) = none) :
    ∃ begun t, ed.press (.plain (code c)) = .ok begun ∧ begun.mode.isEditing = true ∧
      begun.quit = false ∧ begun.count = .empty ∧
      begun.workspace.current = ed.workspace.current ∧
      begun.workspace.current? = some t ∧
      t.history = { s.history with opened := some s.snapshot } := by
  have hediting : ed.mode.isEditing = false := by
    rw [hmode]
    rfl
  have hpress := press_plain_eq_command hquit hmode hs (countKey?_of_mem_entryKeys hc hcount)
    (letterMovement?_of_mem_entryKeys hc _)
  rcases exists_command_of_mem_entryKeys hc (h.valid s (Workspace.mem_of_current? hs))
    { ed with count := .empty, notice := .blank } (ed.count.valueOr 1) ed.count.typed with
    ⟨begun, hbegun, htyping, hempty⟩
  rw [← hpress] at hbegun
  have hfollows := followsTo_press ed _ begun hbegun
  have hturn := hfollows.turn
  have hgrouped := h.grouped
  rw [hediting] at hturn hgrouped
  rw [htyping] at hturn
  rcases hturn.begins hs (hgrouped.opened_eq_none hs) with ⟨hcurrent, t, ht, hhistory⟩
  exact ⟨begun, t, hbegun, htyping, (hfollows.quit_eq ht).trans hquit, hempty, hcurrent, ht,
    hhistory⟩

/-! ## Undoing what has been typed -/

/-- The command that undoes takes the latest change back. -/
theorem press_undo_of_done {change : Change} {earlier : List Change} (hquit : ed.quit = false)
    (hmode : ed.mode = .normal) (hcount : ed.count = .empty)
    (hs : ed.workspace.current? = some s) (hdone : s.history.done = change :: earlier) :
    ∃ undone t, ed.press (.plain (code 'u')) = .ok undone ∧
      undone.workspace.current = ed.workspace.current ∧
      undone.workspace.current? = some t ∧ t.buffer = change.before.buffer ∧
      t.selections = change.before.selections.clamped change.before.buffer.length ∧
      t.history.done = earlier := by
  have hundo : Session.goTimes History.undo? 1 s = some ({ s with
      history := ⟨earlier, change :: s.history.undone, s.history.opened⟩ }.restore
        change.before) := by
    simp only [Session.goTimes, Session.go, History.undo?, hdone, Option.map_some,
      Option.bind_some]
  have hstep := Session.undo?_of_goTimes Nat.one_pos hundo
  have hkey : countKey? ed.count (.plain (code 'u')) = none := by
    rw [hcount]
    rfl
  have hpress := press_plain_eq_command hquit hmode hs hkey rfl
  have hcommand : { ed with count := .empty, notice := .blank }.command s (code 'u')
      (ed.count.valueOr 1) ed.count.typed =
      .ok ({ ed with count := .empty, notice := .blank }.backOrForth (s.undo? 1)
        .nothingToUndo) := by
    rw [hcount]
    rfl
  rw [hcommand, hstep] at hpress
  exact ⟨_, _, hpress, rfl, Workspace.current?_modifyCurrent hs _, rfl, rfl, rfl⟩

/-! ## The theorem -/

/-- All that is typed after a command that begins to insert or to replace bytes is one
change.

The command is one of `entryKeys`.  It is pressed where commands are read, in a state that
can come up, and it is no digit of a count, as it never is while no count is pending.  It
begins to type.  If keys are then typed until commands are read again, the same session is
current, and one change more can be undone if its version is another one than before the
command, and no more if it is the same.  In the first case undoing once gives back the very
version and the selections from before the command. -/
theorem typing_is_one_change {c : Char} (h : ed.Reachable) (hmode : ed.mode = .normal)
    (hquit : ed.quit = false) (hs : ed.workspace.current? = some s) (hc : c ∈ entryKeys)
    (hcount : ed.count.digit? (code c) = none) :
    ∃ begun, ed.press (.plain (code c)) = .ok begun ∧ begun.mode.isEditing = true ∧
      ∀ keys ended, begun.Typing keys ended → ended.mode = .normal →
        ended.workspace.current = ed.workspace.current ∧
        ∃ t, ended.workspace.current? = some t ∧
          (s.buffer.sameVersion t.buffer = true → t.history.depth = s.history.depth) ∧
          (s.buffer.sameVersion t.buffer = false →
            t.history.depth = s.history.depth + 1 ∧
            ∃ undone u, ended.press (.plain (code 'u')) = .ok undone ∧
              undone.workspace.current = ed.workspace.current ∧
              undone.workspace.current? = some u ∧ u.buffer = s.buffer ∧
              u.selections = s.selections ∧ u.history.depth = s.history.depth) := by
  rcases exists_press_of_mem_entryKeys h hmode hquit hs hc hcount with
    ⟨begun, r, hbegun, hediting, hquit', hempty, hcurrent, hr, hhistory⟩
  refine ⟨begun, hbegun, hediting, ?_⟩
  intro keys ended htyping hended
  have hopened : r.history.opened = some s.snapshot := by rw [hhistory]
  rcases htyping.history hediting hr hopened with ⟨hcurrent', hcount', hquit'', t, ht, hlast⟩
  have hclosed : ended.mode.isEditing = false := by
    rw [hended]
    rfl
  rw [hclosed, if_neg Bool.false_ne_true] at hlast
  have hgroup : t.history.opened = some s.snapshot := by rw [ht, hopened]
  have hdone : t.history.done = s.history.done := by rw [ht, hhistory]
  refine ⟨hcurrent'.trans hcurrent, t.commitGroup, hlast, ?_⟩
  have hbuffer : t.commitGroup.buffer = t.buffer := rfl
  rw [hbuffer]
  rcases Session.history_commitGroup hgroup with ⟨hsame, hcommit⟩ | ⟨hother, hcommit⟩
  · change s.buffer.sameVersion t.buffer = true at hsame
    simp only [hsame, forall_true_left, Bool.true_eq_false, false_imp_iff, and_true]
    rw [History.depth, hcommit, hdone, History.depth]
  · change s.buffer.sameVersion t.buffer = false at hother
    simp only [hother, Bool.false_eq_true, false_imp_iff, forall_true_left, true_and]
    have hlatest : t.commitGroup.history.done = ⟨s.snapshot, t.snapshot⟩ :: s.history.done := by
      rw [hcommit, hdone]
    rcases press_undo_of_done (hquit''.trans hquit') hended (hcount'.trans hempty) hlast
      hlatest with ⟨undone, u, hundone, hkept, hu, hback, hselections, hearlier⟩
    refine ⟨?_, undone, u, hundone, hkept.trans (hcurrent'.trans hcurrent), hu, hback, ?_, ?_⟩
    · rw [History.depth, hlatest, List.length_cons, History.depth]
    · rw [hselections]
      exact (h.valid s (Workspace.mem_of_current? hs)).snapshot.selections.clamped_eq
    · rw [History.depth, hearlier, History.depth]

/-- A letter that is typed into an empty session is one change, and undoing it gives the
empty version back. -/
theorem typing_is_one_change_letter :
    ∃ begun ended t undone u, (start .empty .blank).press (.plain (code 'i')) = .ok begun ∧
      begun.Typing [.plain (code 'a'), .escape] ended ∧
      ended.workspace.current? = some t ∧ t.history.depth = 1 ∧
      ended.press (.plain (code 'u')) = .ok undone ∧ undone.workspace.current? = some u ∧
      u.buffer = .empty := by
  have hentry : 'i' ∈ entryKeys := List.mem_cons_self
  have hstart : (start .empty .blank).Reachable := .start .empty
  rcases typing_is_one_change hstart rfl rfl rfl hentry
    (digit?_empty_of_mem_entryKeys hentry) with ⟨begun, hbegun, hediting, htyped⟩
  have hrun : (begun.press (.plain (code 'a')) >>= fun next =>
      (next.press .escape).map fun ended => (next.mode.isEditing, ended.mode,
        ended.workspace.current?.map fun t => Rope.empty.sameVersion t.buffer)) =
      .ok (true, .normal, some false) := by
    cases hbegun
    rfl
  rcases hnext : begun.press (.plain (code 'a')) with fault | next
  · rw [hnext] at hrun
    cases hrun
  · rcases hended : next.press .escape with fault | ended
    · simp only [hnext, hended, bind, Except.bind, Except.map] at hrun
      cases hrun
    · simp only [hnext, hended, bind, Except.bind, Except.map, Except.ok.injEq,
        Prod.mk.injEq] at hrun
      rcases hrun with ⟨htypes, hnormal, hother⟩
      have htyping : begun.Typing [.plain (code 'a'), .escape] ended :=
        .cons hediting hnext (.cons htypes hended (.nil ended))
      rcases htyped _ ended htyping hnormal with ⟨-, t, ht, -, hchanged⟩
      rw [ht, Option.map_some, Option.some.injEq] at hother
      rcases hchanged hother with ⟨hdepth, undone, u, hundone, -, hu, hback, -, -⟩
      exact ⟨begun, ended, t, undone, u, hbegun, htyping, ht, hdepth, hundone, hu, hback⟩

end Editor

end HexEditor
