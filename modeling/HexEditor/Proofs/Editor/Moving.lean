import HexEditor.Proofs.Editor.Counting
import HexEditor.Proofs.Editor.Reachable

/-!
# Movements with a count

A movement key behind a count moves every cursor by that many bytes or rows, however large the count
is, and stops at either end of the file.

Main results:

- Definition `Editor.movementKeys`: the keys that move, with what they do.
- Theorem `Editor.press_movementKey`: one movement key, with any count.
- Theorem `Editor.counted_movement_exact`: the keys of a count and a movement key, against the exact
  sum and against what is computed in words.
-/

namespace HexEditor

namespace Editor

variable {ed : Editor} {s : Session} {key : Key} {unit : Int} {extend : Bool} {width : Nat}

/-! ## Movement keys -/

/-- The keys that move, with the displacement of one step and whether they extend. -/
def movementKeys (width : Nat) : List (Key × Int × Bool) :=
  [(.left, -1, false), (.plain (code 'h'), -1, false), (.plain (code 'H'), -1, true),
    (.right, 1, false), (.plain (code 'l'), 1, false), (.plain (code 'L'), 1, true),
    (.up, -width, false), (.plain (code 'k'), -width, false), (.plain (code 'K'), -width, true),
    (.down, width, false), (.plain (code 'j'), width, false), (.plain (code 'J'), width, true)]

/-- A movement key moves, and it belongs to no count and is no other key. -/
theorem movement?_of_mem_movementKeys (hkey : (key, unit, extend) ∈ movementKeys width) :
    movement? width true key = some (unit, extend) ∧ (∀ count, countKey? count key = none) ∧
      key ≠ .escape ∧ key.isAlt (code 's') = false := by
  simp only [movementKeys, List.mem_cons, Prod.mk.injEq, List.not_mem_nil, or_false] at hkey
  rcases hkey with h | h | h | h | h | h | h | h | h | h | h | h
  all_goals
    obtain ⟨rfl, rfl, rfl⟩ := h
    refine ⟨rfl, ?_, by simp [Key.plain], rfl⟩
    rintro ⟨value, typed, hex⟩
    cases hex <;> rfl

theorem ne_zero_of_mem_movementKeys (hwidth : 1 ≤ width)
    (hkey : (key, unit, extend) ∈ movementKeys width) : unit ≠ 0 := by
  simp only [movementKeys, List.mem_cons, Prod.mk.injEq, List.not_mem_nil, or_false] at hkey
  omega

/-- Where commands are read a movement key uses the count up and moves the selections. -/
theorem press_movementKey (hquit : ed.quit = false) (hmode : ed.mode = .normal)
    (hs : ed.workspace.current? = some s) (hkey : (key, unit, extend) ∈ movementKeys ed.view.width) :
    ed.press key = .ok ({ ed with count := .empty, notice := .blank }.select
      (s.selections.moveBy (unit * min (ed.count.valueOr 1) (s.buffer.length + 1)) extend
        s.buffer.length)) := by
  obtain ⟨hmove, hcount, hescape, halt⟩ := movement?_of_mem_movementKeys hkey
  simp only [press, hquit, Bool.false_eq_true, if_false, hs, hmode, pressNormal, if_neg hescape,
    hcount, halt, move?, hmove, Option.map_some]

/-! ## Movements behind a count -/

variable {hex : Bool} {digits : List Nat}

/-- A movement with a count is exact.

The editor reads commands, in a state that can come up, and no count is pending.  The digits of a
number of any size are typed, in decimal or behind the key that changes the base, or none at all for
a single step; then one of the movement keys is pressed.  The selections that this leaves are those
of which every cursor has become the offset of the file that is closest to the exact sum of the old
cursor and that many displacements.  The anchor follows the cursor, or stays if the key extends.

The same offsets come out when all of this is computed in words of 64 bits, as long as the length
and one more byte, times the width of a row, fits into a signed word.  No row is wider than 4096
bytes, so that is the case for every file of less than two to the 50 bytes. -/
theorem counted_movement_exact (h : ed.Reachable) (hmode : ed.mode = .normal)
    (hquit : ed.quit = false) (hcount : ed.count = .empty)
    (hs : ed.workspace.current? = some s) (hlength : s.buffer.length < lastOffset)
    (hdigits : ∀ d ∈ digits, d < Count.baseOf hex)
    (hkey : (key, unit, extend) ∈ movementKeys ed.view.width) :
    (countKeys hex digits ++ [key]).foldlM press ed =
        .ok ({ ed with count := .empty, notice := .blank }.select
          (.ofList (s.selections.selections.map fun t : Selection =>
            let cursor := closest s.buffer.length (t.cursor + unit * Count.steps hex digits)
            if extend then ⟨t.anchor, cursor⟩ else .point cursor) s.selections.main)) ∧
      ((s.buffer.length + 1) * unit.natAbs < 2 ^ 63 → ∀ t ∈ s.selections.selections,
        (Word.target (.ofInt unit) (Count.stepsWord hex digits) (.ofNat s.buffer.length)
            (.ofNat t.cursor)).toNat =
          closest s.buffer.length (t.cursor + unit * Count.steps hex digits)) := by
  have hset : s.selections.Valid s.buffer.length :=
    (h.valid s (Workspace.mem_of_current? hs)).snapshot.selections
  constructor
  · have hpress : { ed with count := .entered hex digits }.press key = _ :=
      press_movementKey hquit hmode hs hkey
    rw [List.foldlM_append, foldlM_press_countKeys hquit hmode hs hcount hdigits]
    change { ed with count := .entered hex digits }.press key >>= pure = _
    rw [hpress, Count.valueOr_entered, hset.moveBy_eq hlength]
    rfl
  · intro hroom t ht
    have hunit := ne_zero_of_mem_movementKeys h.tidy.width.1 hkey
    have hcursor : t.cursor ≤ s.buffer.length := (Selection.last_le_iff.1 (hset.last_le t ht)).2
    exact Word.toNat_target_eq_closest hunit hroom hcursor (Count.toNat_stepsWord hdigits)

/-- In a file of two bytes more steps to the right than there are offsets lead to its end. -/
theorem counted_movement_exact_pair :
    ∃ moved t, (countKeys false (List.replicate 20 9) ++ [Key.plain (code 'L')]).foldlM press
        (start ⟨[pairSession], 0, 1⟩ pairDisk) = .ok moved ∧
      moved.workspace.current? = some t ∧ t.selections = ⟨[⟨0, 2⟩], 0⟩ ∧
      (Word.target (.ofInt 1) (Count.stepsWord false (List.replicate 20 9)) 2 0).toNat = 2 := by
  have hdigits : ∀ d ∈ List.replicate 20 9, d < Count.baseOf false := by simp [Count.baseOf]
  have hkey : (Key.plain (code 'L'), (1 : Int), true) ∈ movementKeys 16 := by simp [movementKeys]
  have hright : closest 2 ((0 : Nat) + 1 * Count.steps false (List.replicate 20 9)) = 2 := by decide
  have hs : (start ⟨[pairSession], 0, 1⟩ pairDisk).workspace.current? = some pairSession := rfl
  obtain ⟨hmoved, hword⟩ := counted_movement_exact (.start opened_pair) rfl rfl rfl hs
    (by rw [length_pairSession]; decide) hdigits hkey
  rw [length_pairSession] at hmoved hword
  refine ⟨_, _, hmoved, Workspace.current?_modifyCurrent hs _, ?_, ?_⟩
  · change SelectionSet.ofList [⟨0, closest 2 ((0 : Nat) + 1 * Count.steps false _)⟩] 0 = _
    rw [hright]
    exact SelectionSet.ofList_of_pairwise (List.pairwise_singleton _ _) Nat.one_pos
  · exact (hword (by decide) (.point 0) List.mem_cons_self).trans hright

end Editor

end HexEditor
