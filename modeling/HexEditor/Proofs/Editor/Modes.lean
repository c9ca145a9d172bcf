import HexEditor.Proofs.Editor.Reachable
import HexEditor.Proofs.Session.Current

/-!
# What the mode says about the rest of the state

The mode tells what else can be pending.  A group of changes is open in the current session
exactly while bytes are being typed, a count waits only where commands are read, and a prompt
or the first digit of a byte exists only in the mode that asked for it.  So the escape key has
one thing to end in each mode, and it always leads back to commands with nothing pending.

Main results:

- Theorem `Editor.exists_press_escape`: the escape key in every mode.
- Theorem `Editor.reachable_modes`: what is pending in which mode, and what the escape key
  leaves alone.
-/

namespace HexEditor

namespace Editor

variable {ed : Editor}

theorem Reachable.exists_current (h : ed.Reachable) (hopen : ed.workspace.sessions ≠ []) :
    ∃ s, ed.workspace.current? = some s := by
  have hcurrent := Workspace.hasCurrent_empty.moves h.moves
  exact ⟨_, List.getElem?_eq_getElem (hcurrent (List.length_pos_iff.2 hopen))⟩

/-! ## The escape key -/

/-- While bytes are being typed the escape key closes the group; in every other mode it does
nothing to the sessions.  No mode but the two that read counts has one pending. -/
theorem exists_press_escape (htidy : ed.Tidy) (hquit : ed.quit = false) {s : Session}
    (hs : ed.workspace.current? = some s) :
    ∃ ed', ed.press .escape = .ok ed' ∧ ed'.mode = .normal ∧ ed'.count = .empty ∧
      ed'.registers = ed.registers ∧
      (ed'.workspace = ed.workspace ∨
        ed'.workspace = ed.workspace.modifyCurrent Session.commitGroup) := by
  have hcount := htidy.count_eq_empty
  simp only [press, hquit, hs, Bool.false_eq_true, if_false]
  cases hmode : ed.mode with
  | normal => exact ⟨_, rfl, hmode, rfl, rfl, .inl rfl⟩
  | jump extend => exact ⟨_, rfl, rfl, hcount (by rw [hmode]; rfl), rfl, .inl rfl⟩
  | split => exact ⟨_, rfl, rfl, rfl, rfl, .inl rfl⟩
  | insert encoding side half =>
      exact ⟨_, rfl, rfl, hcount (by rw [hmode]; rfl), rfl, .inr rfl⟩
  | replace encoding half => exact ⟨_, rfl, rfl, hcount (by rw [hmode]; rfl), rfl, .inr rfl⟩
  | pattern encoding purpose prompt =>
      exact ⟨_, rfl, rfl, hcount (by rw [hmode]; rfl), rfl, .inl rfl⟩
  | command prompt => exact ⟨_, rfl, rfl, hcount (by rw [hmode]; rfl), rfl, .inl rfl⟩

/-! ## The modes -/

/-- In every state that can come up with a session open:

- a group of changes is open in the current session exactly while bytes are being inserted or
  replaced, and in no other session;
- a count, or the change of its base, is pending only where commands or ways to split are
  read;
- the cursor of a prompt lies within its text;
- a digit waits only in hex, in the upper half of a byte;
- the rows show between 1 and 4096 bytes.

So unless the editor has come to its end, the escape key leads to where commands are read,
with no count pending and no group open, and it leaves all versions, selections and registers
as they are. -/
theorem reachable_modes (h : ed.Reachable) (hopen : ed.workspace.sessions ≠ []) :
    (∃ s, ed.workspace.current? = some s ∧
      (s.history.isGrouping = true ↔
        (∃ encoding side half, ed.mode = .insert encoding side half) ∨
          ∃ encoding half, ed.mode = .replace encoding half)) ∧
    (∀ i s, ed.workspace.sessions[i]? = some s → i ≠ ed.workspace.current →
      s.history.isGrouping = false) ∧
    (ed.count.typed = true ∨ ed.count.hex = true → ed.mode = .normal ∨ ed.mode = .split) ∧
    (∀ prompt, (ed.mode = .command prompt ∨
        ∃ encoding purpose, ed.mode = .pattern encoding purpose prompt) →
      prompt.cursor ≤ prompt.text.length) ∧
    (∀ encoding half, ((∃ side, ed.mode = .insert encoding side (some half)) ∨
        ed.mode = .replace encoding (some half)) →
      encoding = .hex ∧ half.toNat % 16 = 0) ∧
    (1 ≤ ed.view.width ∧ ed.view.width ≤ 4096) ∧
    (ed.quit = false →
      ∃ ed', ed.press .escape = .ok ed' ∧ ed'.mode = .normal ∧ ed'.count = .empty ∧
        (∀ s ∈ ed'.workspace.sessions, s.history.isGrouping = false) ∧
        ed'.workspace.current = ed.workspace.current ∧
        ed'.workspace.sessions.map Session.snapshot =
          ed.workspace.sessions.map Session.snapshot ∧
        ed'.registers = ed.registers) := by
  have htidy := h.tidy
  have hgrouped := h.grouped
  rcases h.exists_current hopen with ⟨s, hs⟩
  refine ⟨⟨s, hs, ?_⟩, ?_, ?_, ?_, ?_, htidy.width, ?_⟩
  · rw [hgrouped.isGrouping_eq hs]
    cases ed.mode <;> simp [Mode.isEditing]
  · intro i t ht hother
    rw [Bool.eq_false_iff]
    exact fun hgrouping => hother ((hgrouped i t ht).1 hgrouping).1
  · intro hpending
    rcases htidy.count with hcounts | hcount
    · cases hmode : ed.mode <;> simp_all [Mode.counts]
    · rw [hcount] at hpending
      simp [Count.empty] at hpending
  · have hvalid := htidy.mode
    rintro prompt (hprompt | ⟨encoding, purpose, hprompt⟩)
    · rw [hprompt] at hvalid
      exact hvalid
    · rw [hprompt] at hvalid
      exact hvalid
  · have hvalid := htidy.mode
    rintro encoding half (⟨side, hinsert⟩ | hreplace)
    · rw [hinsert] at hvalid
      exact hvalid half rfl
    · rw [hreplace] at hvalid
      exact hvalid half rfl
  · intro hquit
    rcases exists_press_escape htidy hquit hs with
      ⟨ed', hpress, hmode, hcount, hregisters, hworkspace⟩
    have hclosed := (h.press hpress).grouped
    rw [hmode] at hclosed
    refine ⟨ed', hpress, hmode, hcount, Workspace.grouped_false_iff.1 hclosed, ?_, ?_,
      hregisters⟩
    · rcases hworkspace with hsame | hcommitted
      · rw [hsame]
      · rw [hcommitted]
        rfl
    · rcases hworkspace with hsame | hcommitted
      · rw [hsame]
      · have hkept : ∀ s : Session, s.commitGroup.snapshot = s.snapshot := fun _ => rfl
        rw [hcommitted]
        exact Workspace.map_modifyCurrent hkept _

/-- While the first digit of a byte waits to be inserted, a group is open, and the escape key
gives the digit up and closes the group. -/
theorem reachable_modes_digit :
    ∃ ed ed' s, [Key.plain (code 'I'), .plain (code '4')].foldlM press
        (start .empty .blank) = .ok ed ∧ ed.Reachable ∧
      ed.mode = .insert .hex .before (some 64) ∧
      ed.workspace.current? = some s ∧ s.history.isGrouping = true ∧
      ed.press .escape = .ok ed' ∧ ed'.mode = .normal ∧
      ∀ t ∈ ed'.workspace.sessions, t.history.isGrouping = false := by
  have hrun : ∃ ed, [Key.plain (code 'I'), .plain (code '4')].foldlM press
      (start .empty .blank) = .ok ed ∧ ed.mode = .insert .hex .before (some 64) ∧
      ed.quit = false ∧ ed.workspace.sessions.length = 1 := ⟨_, rfl, rfl, rfl, rfl⟩
  rcases hrun with ⟨ed, hpressed, hmode, hquit, hone⟩
  have hreachable : ed.Reachable := (Reachable.start .empty).pressAll hpressed
  have hopen : ed.workspace.sessions ≠ [] := by
    rw [← List.length_pos_iff, hone]
    exact Nat.one_pos
  rcases reachable_modes hreachable hopen with ⟨⟨s, hs, hgrouping⟩, -, -, -, -, -, hescape⟩
  rcases hescape hquit with ⟨ed', hpress, hnormal, -, hclosed, -⟩
  exact ⟨ed, ed', s, hpressed, hreachable, hmode, hs,
    hgrouping.2 (.inl ⟨_, _, _, hmode⟩), hpress, hnormal, hclosed⟩

end Editor

end HexEditor
