import HexEditor.Editor.Press
import Mathlib.Tactic.Common

/-!
# What the modes remember

Besides the open sessions an editor keeps small things between two keys: a prompt with its
cursor, the first digit of a byte, a count, the width of the rows.  This module says when
they are in order, and shows that the operations on prompts and halves of bytes leave them
so.

Main results:

- Definition `Mode.isEditing`: the modes in which bytes are typed.
- Definition `Mode.Valid` and theorem `Prompt.cursor_le_of_edit?`: the cursor of a prompt
  does not leave its text, and a digit waits in the upper half of a byte.
- Definition `Editor.Tidy`: all that an editor keeps besides its sessions is in order.
-/

namespace HexEditor

/-! ## Prompts -/

namespace Prompt

variable {p q : Prompt}

theorem cursor_le_of_insert (h : p.cursor ≤ p.text.length) (text : Text) :
    (p.insert text).cursor ≤ (p.insert text).text.length := by
  simp only [insert, List.length_append, List.length_take, List.length_drop]
  omega

/-- Editing a prompt by a key keeps the cursor within the text. -/
theorem cursor_le_of_edit? {key : Key} (h : p.cursor ≤ p.text.length)
    (hq : p.edit? key = some q) : q.cursor ≤ q.text.length := by
  cases key with
  | left =>
      cases hq
      exact Nat.le_trans (Nat.sub_le _ _) h
  | right =>
      cases hq
      dsimp only
      split_ifs <;> omega
  | backspace =>
      cases hq
      split_ifs
      · exact h
      · simp only [List.length_eraseIdx]
        split_ifs <;> omega
  | delete =>
      cases hq
      simp only [List.length_eraseIdx]
      split_ifs <;> omega
  | char c ctrl alt =>
      rcases Option.map_eq_some_iff.1 hq with ⟨code, -, rfl⟩
      exact cursor_le_of_insert h _
  | escape => cases hq
  | enter => cases hq
  | tab => cases hq
  | up => cases hq
  | down => cases hq
  | unknown => cases hq

end Prompt

/-! ## Modes -/

namespace Mode

/-- Are bytes being typed, in front of the selections, behind them or in their place? -/
def isEditing : Mode → Bool
  | insert .. => true
  | replace .. => true
  | _ => false

/-- Can a count be typed, in front of a command or of a way to split? -/
def counts : Mode → Bool
  | normal => true
  | split => true
  | _ => false

/-- What the mode remembers is in order: a digit waits only in hex and in the upper half of
a byte, and the cursor of a prompt does not leave its text. -/
def Valid : Mode → Prop
  | insert encoding _ half => ∀ b ∈ half, encoding = .hex ∧ b.toNat % 16 = 0
  | replace encoding half => ∀ b ∈ half, encoding = .hex ∧ b.toNat % 16 = 0
  | pattern _ _ prompt => prompt.cursor ≤ prompt.text.length
  | command prompt => prompt.cursor ≤ prompt.text.length
  | _ => True

theorem valid_insert_none (encoding : Encoding) (side : Side) :
    (insert encoding side none).Valid := by
  intro b hb
  cases hb

theorem valid_replace_none (encoding : Encoding) : (replace encoding none).Valid := by
  intro b hb
  cases hb

end Mode

/-! ## The editor -/

namespace Editor

theorem toNat_upperHalf (digit : Nat) : (upperHalf digit).toNat % 16 = 0 := by
  simp only [upperHalf, Nat.toUInt8, UInt8.toNat_ofNat']
  omega

/-- What the editor keeps besides its sessions is in order: the mode remembers valid
things, a count is pending only where one can be typed, and the rows have a width. -/
structure Tidy (ed : Editor) : Prop where
  mode : ed.mode.Valid
  count : ed.mode.counts = true ∨ ed.count = .empty
  width : 1 ≤ ed.view.width ∧ ed.view.width ≤ widthLimit

variable {ed ed' : Editor}

/-- An editor without a count is tidy in every mode that remembers valid things. -/
theorem Tidy.of_count (h : ed.Tidy) (hmode : ed'.mode.Valid) (hcount : ed'.count = .empty)
    (hview : ed'.view = ed.view) : ed'.Tidy := by
  refine ⟨hmode, .inr hcount, ?_⟩
  rw [hview]
  exact h.width

/-- Where commands are read, any count may be pending. -/
theorem Tidy.of_normal (h : ed.Tidy) (hmode : ed'.mode = .normal)
    (hview : ed'.view = ed.view) : ed'.Tidy := by
  refine ⟨?_, .inl ?_, ?_⟩
  · rw [hmode]
    exact trivial
  · rw [hmode]
    rfl
  · rw [hview]
    exact h.width

/-- A tidy editor stays so as long as its mode, its count and its view do. -/
theorem Tidy.of_same (h : ed.Tidy) (hmode : ed'.mode = ed.mode) (hcount : ed'.count = ed.count)
    (hview : ed'.view = ed.view) : ed'.Tidy := by
  refine ⟨?_, ?_, ?_⟩
  · rw [hmode]
    exact h.mode
  · rw [hmode, hcount]
    exact h.count
  · rw [hview]
    exact h.width

/-- No count is pending where none can be typed. -/
theorem Tidy.count_eq_empty (h : ed.Tidy) (hcounts : ed.mode.counts = false) :
    ed.count = .empty := by
  rcases h.count with hmode | hcount
  · rw [hcounts] at hmode
    cases hmode
  · exact hcount

/-- An editor that begins is tidy. -/
theorem tidy_start (w : Workspace) (disk : Disk) : (start w disk).Tidy := by
  have hwidth : 1 ≤ ViewOptions.initial.width ∧ ViewOptions.initial.width ≤ widthLimit := by
    decide
  exact ⟨trivial, .inl rfl, hwidth⟩

end Editor

end HexEditor
