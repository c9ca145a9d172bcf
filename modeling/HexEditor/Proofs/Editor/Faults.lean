import Mathlib
import HexEditor.Proofs.Edit.InOrder
import HexEditor.Proofs.Editor.Reachable

/-!
# Which keys can end in a fault

The edits that keys ask for fit into the version they are applied to, with one exception.
While bytes are appended, the backspace key erases the byte in front of the place behind
every selection, and such a place never lies beyond the end of the file.  If one selection
ends at the last byte and another stands behind it, both want to erase the last byte, and
the second erasure is refused.

Files are assumed to leave room for the offset behind their end.

Main results:

- Definition `Editor.Succeeds` and the theorems about it: the handlers that do not end in a
  fault.
- Theorem `Editor.press_error_iff`: the one key that does, the state it is pressed in, and
  the fault.
- Theorem `Editor.backspace_refused`: such a state comes up.
-/

namespace HexEditor

namespace Editor

/-! ## Handlers that succeed -/

/-- The handling of a key does not end in a fault. -/
def Succeeds (result : Except Fault Editor) : Prop :=
  ∃ ed, result = .ok ed

section Composition

variable {result result' : Except Fault Editor}

theorem Succeeds.ok (ed : Editor) : Succeeds (.ok ed) :=
  ⟨ed, rfl⟩

theorem Succeeds.ite {c : Prop} [Decidable c] (h : Succeeds result) (h' : Succeeds result') :
    Succeeds (if c then result else result') := by
  split_ifs
  · exact h
  · exact h'

theorem Succeeds.map (h : Succeeds result) (f : Editor → Editor) :
    Succeeds (result.map f) := by
  rcases h with ⟨ed, rfl⟩
  exact .ok (f ed)

theorem Succeeds.ne_error (h : Succeeds result) (fault : Fault) : result ≠ .error fault := by
  rcases h with ⟨ed, rfl⟩
  intro hfault
  cases hfault

end Composition

variable {ed : Editor} {s : Session}

/-! ## Editing -/

theorem succeeds_edit (ed : Editor) (s : Session) {edited : Except RangeError Edited}
    (h : ∃ e, edited = .ok e) : Succeeds (ed.edit s edited) := by
  rcases h with ⟨e, rfl⟩
  exact .ok _

theorem succeeds_copy (ed : Editor) (s : Session) : Succeeds (ed.copy s) := by
  rcases s.buffer.exists_yank s.selections with ⟨entries, hentries⟩
  rw [copy, hentries]
  exact .ok _

theorem succeeds_cut (ed : Editor) (h : s.Valid) : Succeeds (ed.cut s) := by
  rcases succeeds_copy ed s with ⟨copied, hcopied⟩
  rw [cut, hcopied]
  exact succeeds_edit copied s (h.snapshot.sound.exists_delete h.snapshot.selections)

section Bounded

variable (h : s.Valid) (hlength : s.buffer.length < lastOffset)

include h hlength

theorem succeeds_paste (ed : Editor) (side : Side) (count : Nat) :
    Succeeds (ed.paste s side count) := by
  simp only [paste]
  refine .ite (.ok _) (.ite (.ok _) (succeeds_edit ed s ?_))
  exact h.snapshot.sound.exists_paste h.snapshot.selections hlength _ side count

theorem succeeds_insertByte (ed : Editor) (side : Side) (byte : UInt8) :
    Succeeds (ed.insertByte s side byte) :=
  succeeds_edit ed s
    (h.snapshot.sound.exists_insert h.snapshot.selections hlength [byte] side)

theorem succeeds_command (ed : Editor) (c : Int) (count : Nat) (typed : Bool) :
    Succeeds (ed.command s c count typed) := by
  -- a group that is opened keeps the version and the selections that are cut
  have hchange : ∀ encoding, Succeeds ((ed.beginInsert encoding .before).cut s.beginGroup) :=
    fun encoding => succeeds_cut _ h.beginGroup
  have hcopy : Succeeds (ed.copy s >>= fun copied =>
      return copied.tell (.yanked s.selections.size)) := by
    rcases succeeds_copy ed s with ⟨copied, hcopied⟩
    rw [hcopied]
    exact .ok _
  simp only [command]
  repeat' first
    | exact .ok _
    | exact hcopy
    | exact hchange _
    | exact succeeds_cut ed h
    | exact succeeds_paste h hlength ed _ count
    | apply Succeeds.ite

theorem succeeds_pressNormal (ed : Editor) (key : Key) : Succeeds (ed.pressNormal s key) := by
  rw [pressNormal]
  refine .ite (.ok _) ?_
  rcases countKey? ed.count key with _ | count
  · refine .ite (.ok _) ?_
    dsimp only
    split
    · exact .ok _
    · refine .ite (.ok _) (.ite (.ok _) ?_)
      rcases key.plain? with _ | c
      · exact .ok _
      · exact succeeds_command h hlength _ c _ _
  · exact .ok _

/-- While bytes are inserted every key succeeds, unless the backspace key would erase the
last byte twice. -/
theorem succeeds_pressInsert (ed : Editor) (encoding : Encoding) {side : Side}
    {half : Option UInt8} {key : Key}
    (hclear : key = .backspace → half = none → side = .after →
      ¬ s.selections.CrowdsEnd s.buffer.length) :
    Succeeds (ed.pressInsert s encoding side half key) := by
  have hsound := h.snapshot.sound
  have hset := h.snapshot.selections
  cases key with
  | backspace =>
      rcases half with _ | half
      · exact succeeds_edit ed s (hsound.exists_eraseBefore hset hlength (hclear rfl rfl))
      · exact .ok _
  | delete => exact succeeds_edit ed s (hsound.exists_eraseAt hset hlength side)
  | enter => exact .ite (succeeds_insertByte h hlength ed side 10) (.ok _)
  | tab => exact .ite (succeeds_insertByte h hlength ed side 9) (.ok _)
  | char c ctrl alt =>
      simp only [pressInsert]
      refine .ite (.ok _) (.ite (succeeds_insertByte h hlength _ side 0) (.ite (.ok _) ?_))
      refine .ite (succeeds_insertByte h hlength ed side _) ?_
      rcases hexDigitOfCode? c with _ | digit
      · exact .ok _
      · rcases half with _ | half
        · exact .ok _
        · exact succeeds_insertByte h hlength _ side _
  | escape => exact .ok _
  | unknown => exact .ok _
  | left => exact .ok _
  | right => exact .ok _
  | up => exact .ok _
  | down => exact .ok _

end Bounded

theorem succeeds_overwriteWith (h : s.Valid) (ed : Editor) (byte : UInt8) :
    Succeeds (ed.overwriteWith s byte) :=
  succeeds_edit ed s (h.snapshot.sound.exists_overwrite h.snapshot.selections byte)

theorem succeeds_pressReplace (h : s.Valid) (ed : Editor) (encoding : Encoding)
    (half : Option UInt8) (key : Key) : Succeeds (ed.pressReplace s encoding half key) := by
  cases key with
  | char c ctrl alt =>
      simp only [pressReplace]
      refine .ite ((succeeds_overwriteWith h ed 0).map _) (.ite (.ok _) (.ite (.ok _) ?_))
      refine .ite (succeeds_overwriteWith h ed _) ?_
      rcases hexDigitOfCode? c with _ | digit
      · exact .ok _
      · rcases half with _ | half
        · exact .ok _
        · exact succeeds_overwriteWith h _ _
  | escape => exact .ok _
  | backspace => exact .ok _
  | delete => exact .ok _
  | enter => exact .ok _
  | tab => exact .ok _
  | unknown => exact .ok _
  | left => exact .ok _
  | right => exact .ok _
  | up => exact .ok _
  | down => exact .ok _

/-! ## Command lines -/

/-- A session that is open can be saved, or the refusal is told. -/
theorem exists_writeSession (ed : Editor) (args : List Text) :
    ∃ saved, ed.writeSession args = .ok saved := by
  rw [writeSession]
  split <;> exact ⟨_, rfl⟩

theorem succeeds_run (ed : Editor) (command : Command) (args : List Text) :
    Succeeds (ed.run command args) := by
  rcases exists_writeSession ed args with ⟨saved, hsaved⟩
  cases command with
  | write =>
      rw [run, hsaved]
      exact .ok _
  | writeAndClose =>
      rw [run, hsaved]
      exact .ok _
  | edit => rcases args with _ | ⟨path, others⟩ <;> exact .ok _
  | setWidth =>
      rw [run]
      split <;> exact .ok _
  | setSwitch switch =>
      rw [run]
      split <;> exact .ok _
  | close force => exact .ok _
  | writeAll => exact .ok _
  | next => exact .ok _
  | previous => exact .ok _

theorem succeeds_execute (ed : Editor) (line : Text) : Succeeds (ed.execute line) := by
  rw [execute]
  split
  · exact .ok _
  · exact .ok _
  · exact succeeds_run ed _ _

theorem succeeds_pressCommand (ed : Editor) (prompt : Prompt) (key : Key) :
    Succeeds (ed.pressCommand prompt key) := by
  rw [pressCommand]
  refine .ite (.ok _) (.ite (succeeds_execute _ _) (.ite (.ok _) ?_))
  rcases prompt.edit? key with _ | edited
  · exact .ok _
  · exact .ok _

/-! ## All modes -/

/-- Every key succeeds in the given session, unless bytes are appended and the backspace
key would erase the last byte twice. -/
theorem succeeds_press (hs : ed.workspace.current? = some s) (h : s.Valid)
    (hlength : s.buffer.length < lastOffset) {key : Key}
    (hclear : key = .backspace → (∃ encoding, ed.mode = .insert encoding .after none) →
      ¬ s.selections.CrowdsEnd s.buffer.length) : Succeeds (ed.press key) := by
  rw [press, hs]
  refine .ite (.ok _) ?_
  dsimp only
  split
  · exact succeeds_pressNormal h hlength ed key
  · exact .ok _
  · exact .ok _
  · rename_i encoding side half hmode
    apply succeeds_pressInsert h hlength
    rintro hkey rfl rfl
    exact hclear hkey ⟨encoding, hmode⟩
  · exact succeeds_pressReplace h ed _ _ key
  · exact .ok _
  · exact succeeds_pressCommand ed _ key

/-- The backspace key is refused when two selections crowd the end of the file. -/
theorem press_backspace_of_crowdsEnd (hquit : ed.quit = false)
    (hs : ed.workspace.current? = some s) (h : s.Valid) (hlength : s.buffer.length < lastOffset)
    {encoding : Encoding} (hmode : ed.mode = .insert encoding .after none)
    (hcrowds : s.selections.CrowdsEnd s.buffer.length) :
    ed.press .backspace = .error (.range (.splice ⟨s.buffer.length - 1, s.buffer.length⟩
      (s.buffer.length - 1))) := by
  have herased :=
    h.snapshot.sound.eraseBefore_crowded h.snapshot.selections hlength hcrowds
  simp only [press, hquit, Bool.false_eq_true, if_false, hs, hmode, pressInsert,
    Option.isSome_none]
  exact congrArg (ed.edit s) herased

/-- In every state that can come up, the cursor of a prompt lies within its text, and a key
ends in a fault in one situation only: the backspace key is pressed while bytes are
appended, no digit waits, and two selections crowd the end of the file.  The fault is then
the refusal to erase the last byte a second time. -/
theorem press_error_iff (h : ed.Reachable)
    (hlength : ∀ s ∈ ed.workspace.sessions, s.buffer.length < lastOffset) :
    (∀ prompt, (ed.mode = .command prompt ∨
        ∃ encoding purpose, ed.mode = .pattern encoding purpose prompt) →
      prompt.cursor ≤ prompt.text.length) ∧
    ∀ key fault, ed.press key = .error fault ↔
      ed.quit = false ∧ key = .backspace ∧
        (∃ encoding, ed.mode = .insert encoding .after none) ∧
        ∃ s, ed.workspace.current? = some s ∧ s.selections.CrowdsEnd s.buffer.length ∧
          fault = .range (.splice ⟨s.buffer.length - 1, s.buffer.length⟩
            (s.buffer.length - 1)) := by
  refine ⟨?_, ?_⟩
  · have hvalid := h.tidy.mode
    rintro prompt (hprompt | ⟨encoding, purpose, hprompt⟩)
    · rw [hprompt] at hvalid
      exact hvalid
    · rw [hprompt] at hvalid
      exact hvalid
  · intro key fault
    constructor
    · intro hfault
      by_cases hquit : ed.quit = true
      · rw [press, if_pos hquit] at hfault
        cases hfault
      · rcases hs : ed.workspace.current? with _ | s
        · rw [press, if_neg hquit, hs] at hfault
          cases hfault
        · have hmem := Workspace.mem_of_current? hs
          have hvalid := h.valid s hmem
          rw [Bool.not_eq_true] at hquit
          by_contra hother
          refine (succeeds_press hs hvalid (hlength s hmem) ?_).ne_error fault hfault
          rintro rfl ⟨encoding, hmode⟩ hcrowds
          rw [press_backspace_of_crowdsEnd hquit hs hvalid (hlength s hmem) hmode hcrowds]
            at hfault
          cases hfault
          exact hother ⟨hquit, rfl, ⟨encoding, hmode⟩, s, rfl, hcrowds, rfl⟩
    · rintro ⟨hquit, rfl, ⟨encoding, hmode⟩, s, hs, hcrowds, rfl⟩
      have hmem := Workspace.mem_of_current? hs
      exact press_backspace_of_crowdsEnd hquit hs (h.valid s hmem) (hlength s hmem) hmode hcrowds

/-- Keys that put one selection on the only byte of a file and another behind it, and then
begin to append. -/
def crowdingKeys : List Key :=
  [.plain (code 'i'), .plain (code 'a'), .escape, .plain (code 'H'),
    .char (code 's') false true, .plain (code 'b'), .plain (code 'a')]

/-- In the state that these keys lead to, a key ends in a fault exactly if it is the
backspace key. -/
theorem press_error_iff_crowdingKeys :
    ∃ ed, crowdingKeys.foldlM press (start .empty .blank) = .ok ed ∧ ed.Reachable ∧
      (∀ s ∈ ed.workspace.sessions, s.buffer.length < lastOffset) ∧
      ∀ key, (∃ fault, ed.press key = .error fault) ↔ key = .backspace := by
  have hrun : (crowdingKeys.foldlM press (start .empty .blank)).map (fun ed =>
      (ed.quit, ed.mode, ed.workspace.current, ed.workspace.sessions.map fun s =>
        (s.buffer.length, s.selections))) =
      .ok (false, .insert .ascii .after none, 0, [(1, ⟨[.point 0, .point 1], 0⟩)]) := by
    cbv
  rcases hed : crowdingKeys.foldlM press (start .empty .blank) with fault | ed
  · rw [hed] at hrun
    cases hrun
  · rw [hed] at hrun
    simp only [Except.map, Except.ok.injEq, Prod.mk.injEq, List.map_eq_singleton_iff] at hrun
    rcases hrun with ⟨hquit, hmode, hcurrent, s, hsessions, hlength, hselections⟩
    have hreachable : ed.Reachable := (Reachable.start .empty).pressAll hed
    have hs : ed.workspace.current? = some s := by
      rw [Workspace.current?, hcurrent, hsessions]
      rfl
    have hcrowds : s.selections.CrowdsEnd s.buffer.length := by
      rw [hlength, hselections]
      decide
    have hbounded : ∀ t ∈ ed.workspace.sessions, t.buffer.length < lastOffset := by
      intro t ht
      rw [hsessions, List.mem_singleton] at ht
      rw [ht, hlength]
      decide
    refine ⟨ed, rfl, hreachable, hbounded, ?_⟩
    intro key
    rcases press_error_iff hreachable hbounded with ⟨-, hfaults⟩
    constructor
    · rintro ⟨fault, hfault⟩
      exact ((hfaults key fault).1 hfault).2.1
    · rintro rfl
      exact ⟨_, (hfaults _ _).2 ⟨hquit, rfl, ⟨_, hmode⟩, s, hs, hcrowds, rfl⟩⟩

/-- A key can end in a fault: in that state the backspace key asks to erase the byte of an
empty version. -/
theorem backspace_refused :
    ∃ ed : Editor, crowdingKeys.foldlM press (start .empty .blank) = .ok ed ∧ ed.Reachable ∧
      ed.press .backspace = .error (.range (.splice ⟨0, 1⟩ 0)) := by
  have hrun : ((crowdingKeys ++ [Key.backspace]).foldlM press (start .empty .blank)).map
      (fun _ => ()) = .error (.range (.splice ⟨0, 1⟩ 0)) := by
    cbv
  have hcrowded : (crowdingKeys.foldlM press (start .empty .blank)).isOk = true := by
    cbv
  rw [List.foldlM_append] at hrun
  rcases hed : crowdingKeys.foldlM press (start .empty .blank) with fault | ed
  · rw [hed] at hcrowded
    cases hcrowded
  · rw [hed] at hrun
    rcases hpress : ed.press .backspace with fault | next
    · simp only [List.foldlM_cons, bind, Except.bind, hpress, Except.map, Except.error.injEq]
        at hrun
      rw [hrun] at hpress
      exact ⟨ed, rfl, (Reachable.start .empty).pressAll hed, hpress⟩
    · simp only [List.foldlM_cons, List.foldlM_nil, bind, Except.bind, hpress, Except.map,
        pure, Except.pure] at hrun
      cases hrun

end Editor

end HexEditor
