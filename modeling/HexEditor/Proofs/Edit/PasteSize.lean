import HexEditor.Proofs.Checked
import HexEditor.Proofs.Edit.Landing

/-!
# How much a paste adds

Before a paste is carried out, the bytes that it would add are counted selection by selection.  The
count of repetitions can be any word, so what a selection receives need not have a length that is
one.  A division finds out beforehand whether it still fits under the limit.  What is counted is
the exact sum, and a paste is refused just when this sum passes the limit.

The second half of this module counts with checks: an operation that would leave the words or divide
by zero has no result.  No check ever fails.

Main results:

- Definition `pasteTotal`: the bytes that a paste adds, as a sum without bounds.
- Theorem `pasteSize?_eq`: what is counted is this sum, unless it passes the limit.
- Theorem `Rope.Sound.exists_spliceAll_points`: insertions at points add just their bytes.
- Definition `pasteSizeChecked` and theorem `pasteSizeChecked_eq`: counting with checks.
- Theorem `Rope.paste_adds_foretold`: a paste adds what has been counted.
-/

namespace HexEditor

/-! ## The exact sum -/

/-- What the selection of an index receives, in bytes: its entry as often as it is asked for. -/
def pasteShare (entries : List Bytes) (count index : Nat) : Nat :=
  (Registers.entryFor entries index).length * max count 1

/-- How many bytes a paste adds at all selections together. -/
def pasteTotal (set : SelectionSet) (entries : List Bytes) (count : Nat) : Nat :=
  ((List.range set.size).map (pasteShare entries count)).sum

section Total

variable {set : SelectionSet} {entries : List Bytes} {count total index : Nat}

theorem entryFor_nil (index : Nat) : Registers.entryFor [] index = [] := rfl

/-- Without entries nothing is added. -/
theorem pasteTotal_nil (set : SelectionSet) (count : Nat) : pasteTotal set [] count = 0 := by
  have hnone : pasteShare [] count = fun _ => 0 := by
    funext index
    rw [pasteShare, entryFor_nil, List.length_nil, Nat.zero_mul]
  rw [pasteTotal, hnone]
  simp

/-- Every entry, repeated, is as long as its share. -/
theorem length_pasted (entries : List Bytes) (count index : Nat) :
    (Rope.pasted entries count index).length = pasteShare entries count index := by
  rw [Rope.pasted, List.length_flatten, List.map_replicate, List.sum_replicate, smul_eq_mul,
    Nat.mul_comm, pasteShare, Registers.entryFor]

theorem ahead_pasted (set : SelectionSet) (entries : List Bytes) (count : Nat) :
    ahead (Rope.pasted entries count) set.size = pasteTotal set entries count := by
  rw [ahead, pasteTotal]
  congr 2
  funext index
  exact length_pasted entries count index

/-- A quotient tells whether a product still fits in the room. -/
theorem quotient_lt_iff {n : Nat} (hn : n ≠ 0) (room count : Nat) :
    room / n < count ↔ room < n * count := by
  rw [Nat.div_lt_iff_lt_mul (Nat.pos_of_ne_zero hn), Nat.mul_comm]

/-- A share is added, unless the total would pass the limit. -/
theorem addEntry_eq (htotal : total ≤ pasteLimit) :
    pasteSize?.addEntry entries (max count 1) total index =
      if total + pasteShare entries count index ≤ pasteLimit then
        some (total + pasteShare entries count index)
      else none := by
  rw [pasteSize?.addEntry, pasteShare]
  by_cases hempty : (Registers.entryFor entries index).length = 0
  · rw [if_pos hempty, hempty, Nat.zero_mul, Nat.add_zero, if_pos htotal]
  · simp only [if_neg hempty, quotient_lt_iff hempty]
    split_ifs with hmore hfits hfits
    · omega
    · rfl
    · rfl
    · omega

/-- So are the shares of several selections.  The induction carries that the total so far is within
the limit. -/
theorem foldlM_addEntry (indices : List Nat) (htotal : total ≤ pasteLimit) :
    indices.foldlM (pasteSize?.addEntry entries (max count 1)) total =
      if total + (indices.map (pasteShare entries count)).sum ≤ pasteLimit then
        some (total + (indices.map (pasteShare entries count)).sum)
      else none := by
  induction indices generalizing total with
  | nil => exact (if_pos htotal).symm
  | cons index indices ih =>
      rw [List.foldlM_cons, addEntry_eq htotal, List.map_cons, List.sum_cons, ← Nat.add_assoc]
      by_cases hfits : total + pasteShare entries count index ≤ pasteLimit
      · rw [if_pos hfits]
        exact ih hfits
      · rw [if_neg hfits, if_neg (by omega)]
        rfl

/-- What is counted is the exact sum, unless it passes the limit. -/
theorem pasteSize?_eq (set : SelectionSet) (entries : List Bytes) (count : Nat) :
    pasteSize? set entries count =
      if pasteTotal set entries count ≤ pasteLimit then some (pasteTotal set entries count)
      else none := by
  rw [pasteSize?]
  split_ifs with hnone hfits hfits
  · rw [List.isEmpty_iff.1 hnone, pasteTotal_nil]
  · rw [List.isEmpty_iff.1 hnone, pasteTotal_nil] at hfits
    exact absurd (Nat.zero_le _) hfits
  · rw [foldlM_addEntry _ (Nat.zero_le _), Nat.zero_add]
    exact if_pos hfits
  · rw [foldlM_addEntry _ (Nat.zero_le _), Nat.zero_add]
    exact if_neg hfits

end Total

/-! ## Counting with checks -/

section Check

open Checked

variable {entries : List Bytes} {count total index : Nat}

/-- The entry for the selection of the given index, if there are entries to go round. -/
def entryForChecked (entries : List Bytes) (index : Nat) : Option Bytes :=
  if entries.length = 1 then entries[0]?
  else (mod? index entries.length).bind fun place => entries[place]?

/-- Add what the selection of the given index receives, with checks.  The outer layer says whether
all operations had a result, the inner one whether the limit was kept. -/
def addEntryChecked (entries : List Bytes) (count total index : Nat) : Option (Option Nat) := do
  let n := (← entryForChecked entries index).length
  if n = 0 then some (some total)
  else
    let room ← sub? pasteLimit total
    let quotient ← div? room n
    if quotient < count then some none
    else
      let share ← mul? n count
      let sum ← add? total share
      some (some sum)

/-- Go through the selections until the limit is passed, with checks. -/
def addAllChecked (entries : List Bytes) (count : Nat) : Nat → List Nat → Option (Option Nat)
  | total, [] => some (some total)
  | total, index :: indices =>
    (addEntryChecked entries count total index).bind fun
      | none => some none
      | some total => addAllChecked entries count total indices

/-- Count how many bytes a paste adds, with checks. -/
def pasteSizeChecked (set : SelectionSet) (entries : List Bytes) (count : Nat) :
    Option (Option Nat) :=
  if entries.isEmpty then some (some 0)
  else addAllChecked entries (max count 1) 0 (List.range set.size)

theorem entryForChecked_eq (h : entries ≠ []) (index : Nat) :
    entryForChecked entries index = some (Registers.entryFor entries index) := by
  have hlength : entries.length ≠ 0 := mt List.length_eq_zero_iff.1 h
  have hplace : index % entries.length < entries.length :=
    Nat.mod_lt _ (Nat.pos_of_ne_zero hlength)
  have hentry : entries[index % entries.length]? =
      some (Registers.entryFor entries index) := by
    rw [Registers.entryFor, List.getD_eq_getElem?_getD, List.getElem?_eq_getElem hplace,
      Option.getD_some]
  rw [entryForChecked]
  split_ifs with hsingle
  · rw [← hentry, hsingle, Nat.mod_one]
  · rw [mod?_eq hlength]
    exact hentry

/-- Every operation of a step has a result as long as the total is within the limit. -/
theorem addEntryChecked_eq (h : entries ≠ []) (htotal : total ≤ pasteLimit) :
    addEntryChecked entries count total index =
      some (pasteSize?.addEntry entries count total index) := by
  have hwords : pasteLimit < offsetCount := by decide
  rw [addEntryChecked, pasteSize?.addEntry, entryForChecked_eq h]
  by_cases hempty : (Registers.entryFor entries index).length = 0
  · simp only [Option.bind_eq_bind, Option.bind_some, if_pos hempty]
  · simp only [Option.bind_eq_bind, Option.bind_some, if_neg hempty, sub?_eq htotal,
      div?_eq hempty, quotient_lt_iff hempty]
    split_ifs with hmore
    · rfl
    · rw [mul?_eq (by omega), Option.bind_some, add?_eq (by omega), Option.bind_some]

/-- A step keeps the total within the limit. -/
theorem le_of_addEntry {next : Nat} (htotal : total ≤ pasteLimit)
    (hnext : pasteSize?.addEntry entries (max count 1) total index = some next) :
    next ≤ pasteLimit := by
  rw [addEntry_eq htotal] at hnext
  split_ifs at hnext with hfits
  cases hnext
  exact hfits

theorem addAllChecked_eq (h : entries ≠ []) (indices : List Nat) (htotal : total ≤ pasteLimit) :
    addAllChecked entries (max count 1) total indices =
      some (indices.foldlM (pasteSize?.addEntry entries (max count 1)) total) := by
  induction indices generalizing total with
  | nil => rfl
  | cons index indices ih =>
      rw [addAllChecked, addEntryChecked_eq h htotal, Option.bind_some, List.foldlM_cons]
      rcases hnext : pasteSize?.addEntry entries (max count 1) total index with _ | next
      · rfl
      · exact ih (le_of_addEntry htotal hnext)

/-- No check fails. -/
theorem pasteSizeChecked_eq (set : SelectionSet) (entries : List Bytes) (count : Nat) :
    pasteSizeChecked set entries count = some (pasteSize? set entries count) := by
  rw [pasteSizeChecked, pasteSize?]
  split_ifs with hnone
  · rfl
  · exact addAllChecked_eq (by rwa [List.isEmpty_iff] at hnone) _ (Nat.zero_le _)

end Check

/-! ## What is added -/

/-- The pieces for the selections are as long as those in front of the last index. -/
theorem LocalEdit.sum_length_placements (side : Side) (length : Nat) (piece : Nat → Bytes)
    (after : Selection → Nat → Selection) (selections : List Selection) :
    ((placements side length piece after 0 selections).map fun e => e.replacement.length).sum =
      ahead piece selections.length := by
  rw [ahead, List.range_eq_range', ← List.zipIdx_map_snd, List.map_map, placements, List.map_map]
  rfl

namespace Rope

variable {rope : Rope} {edits : List LocalEdit}

/-- Insertions at points that lie in a version can be carried out, in whatever order the points are.
They add just their bytes. -/
theorem Sound.exists_spliceAll_points (h : rope.Sound)
    (hpoints : ∀ e ∈ edits, e.range.stop = e.range.start ∧ e.range.start ≤ rope.length) :
    ∃ next, rope.spliceAll edits = .ok next ∧ next.Sound ∧
      next.length = rope.length + (edits.map fun e => e.replacement.length).sum := by
  induction edits with
  | nil => exact ⟨rope, rfl, h, rfl⟩
  | cons e edits ih =>
      rcases ih fun f hf => hpoints f (List.mem_cons_of_mem _ hf) with
        ⟨rest, hrest, hsound, hlength⟩
      rcases hpoints e List.mem_cons_self with ⟨hpoint, hwithin⟩
      have hholds : rest.Holds e.range := ⟨hpoint.ge, by omega⟩
      rcases hsound.splice hholds e.replacement with ⟨next, hnext, hsound', hspliced⟩
      refine ⟨next, spliceAll_cons_of_splice hrest hholds hnext, hsound', ?_⟩
      have hgrown := congrArg List.length hspliced
      rw [← hsound'.length_eq, hpoint, List.length_append, List.length_append,
        List.length_take, List.length_drop, ← hsound.length_eq] at hgrown
      rw [List.map_cons, List.sum_cons]
      omega

/-- A paste adds the shares of all selections, whether or not they lie in the version. -/
theorem Sound.exists_paste_adds (h : rope.Sound) (set : SelectionSet) (entries : List Bytes)
    (side : Side) (count : Nat) :
    ∃ e, rope.paste set entries side count = .ok e ∧ e.buffer.Sound ∧
      e.buffer.length = rope.length + pasteTotal set entries count := by
  by_cases hentries : entries = []
  · subst hentries
    exact ⟨⟨rope, set⟩, rfl, h, by rw [pasteTotal_nil, Nat.add_zero]⟩
  · let edits := LocalEdit.placements side rope.length (pasted entries count)
      (fun s i => s.receiving side rope.length (pasted entries count i)) 0 set.selections
    have hpoints : ∀ e ∈ edits, e.range.stop = e.range.start ∧ e.range.start ≤ rope.length := by
      intro e he
      rcases LocalEdit.mem_placements he with ⟨s, -, hrange⟩
      rw [hrange]
      exact ⟨rfl, s.insertionPoint_le side rope.length⟩
    rcases h.exists_spliceAll_points hpoints with ⟨next, hnext, hsound, hlength⟩
    rw [LocalEdit.sum_length_placements, ← SelectionSet.size, ahead_pasted] at hlength
    have hpaste := paste_eq rope set hentries side count
    rw [applyEdits_eq] at hpaste
    exact ⟨_, hpaste.trans (congrArg (Except.map _) hnext), hsound, hlength⟩

/-- For every set of selections, all entries and any count, the bytes that a paste adds are foretold
just when they are at most two to the 30, and then exactly.  Counting them never leaves the words
and never divides by zero.  The paste is not refused, and it adds that many bytes. -/
theorem paste_adds_foretold (h : rope.Sound) (set : SelectionSet) (entries : List Bytes)
    (side : Side) (count : Nat) :
    (∀ n, pasteSize? set entries count = some n ↔
        n = pasteTotal set entries count ∧ pasteTotal set entries count ≤ 2 ^ 30) ∧
      pasteSizeChecked set entries count = some (pasteSize? set entries count) ∧
      ∃ e, rope.paste set entries side count = .ok e ∧
        e.buffer.length = rope.length + pasteTotal set entries count := by
  refine ⟨fun n => ?_, pasteSizeChecked_eq set entries count, ?_⟩
  · have hlimit : pasteLimit = 2 ^ 30 := rfl
    rw [pasteSize?_eq, hlimit]
    split_ifs with hfits
    · rw [Option.some_inj, eq_comm, and_iff_left hfits]
    · simp only [hfits, and_false]
  · rcases h.exists_paste_adds set entries side count with ⟨e, he, -, hlength⟩
    exact ⟨e, he, hlength⟩

/-- Of three selections the first and the third receive half of the limit each, and the second one
receives nothing.  One repetition more is refused. -/
theorem paste_adds_foretold_limit :
    pasteSize? ⟨[.point 0, ⟨2, 1⟩, .point 3], 1⟩ [[7, 8], []] (2 ^ 28) = some (2 ^ 30) ∧
      pasteSize? ⟨[.point 0, ⟨2, 1⟩, .point 3], 1⟩ [[7, 8], []] (2 ^ 28 + 1) = none ∧
      ∃ e, (Rope.ofBytes [1, 2, 3]).paste ⟨[.point 0, ⟨2, 1⟩, .point 3], 1⟩ [[7, 8], []] .after
          (2 ^ 28) = .ok e ∧ e.buffer.length = 3 + 2 ^ 30 := by
  have hsound := sound_ofBytes [1, 2, 3]
  have hlength : (Rope.ofBytes [1, 2, 3]).length = 3 := length_ofBytes _
  have htotal : pasteTotal ⟨[.point 0, ⟨2, 1⟩, .point 3], 1⟩ [[7, 8], []] (2 ^ 28) = 2 ^ 30 := by
    decide
  rcases paste_adds_foretold hsound ⟨[.point 0, ⟨2, 1⟩, .point 3], 1⟩ [[7, 8], []] .after
      (2 ^ 28) with ⟨hforetold, -, e, he, hadded⟩
  rw [hlength, htotal] at hadded
  exact ⟨(hforetold _).2 ⟨htotal.symm, htotal.le⟩, by decide, e, he, hadded⟩

end Rope

end HexEditor
