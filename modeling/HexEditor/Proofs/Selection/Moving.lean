import HexEditor.Proofs.Selection.Normal
import Mathlib.Algebra.Group.Nat.Defs

/-!
# Moving

A movement goes a number of steps in one direction and stops at either end of the file.  The steps
are cut down to one more than the file is long before they are multiplied, and the offset stops at
zero and at the largest offset before it stops at the end of the file.  All this leaves the offset
that is closest to where the movement would lead without any bound.

What is computed with offsets is computed in words of 64 bits, with and without a sign.  The second
half of this module carries the steps of a movement out on the words.  None of the sums and products
wraps, so they give the same as the numbers do.

Main results:

- Definition `closest`: the offset of a file that is closest to a position.
- Theorem `min_shift_eq_closest`: the offset to which a movement leads.
- Theorem `SelectionSet.Valid.moveBy_eq`: the selections that a movement leaves.
- Definitions `Word.displacement`, `Word.shift` and `Word.target`: the same steps on words.
- Theorems `Word.toNat_shift` and `Word.toNat_target_eq_closest`: they lead to the same offsets.
-/

namespace HexEditor

/-! ## Moving without bounds -/

/-- The offset of a file of the given length that is closest to a position. -/
def closest (length : Nat) (position : Int) : Nat :=
  (max 0 (min position length)).toNat

/-- Cutting the steps down and stopping at the ends leaves the offset that is closest to where the
movement would lead. -/
theorem min_shift_eq_closest {length cursor : Nat} (hlength : length < lastOffset)
    (hcursor : cursor ≤ length) (unit : Int) (steps : Nat) :
    min (shift (unit * min (min steps lastOffset) (length + 1)) cursor) length =
      closest length (cursor + unit * steps) := by
  have hcut : min (min steps lastOffset) (length + 1) = min steps (length + 1) := by omega
  rw [hcut]
  unfold shift closest
  by_cases hfew : steps ≤ length + 1
  · rw [Nat.min_eq_left hfew]
    omega
  · rw [Nat.min_eq_right (Nat.le_of_not_le hfew)]
    -- both movements lead behind the same end, unless they do not move at all
    have hlong : (0 : Int) ≤ (length + 1 : Nat) := by omega
    rcases Int.lt_trichotomy unit 0 with hneg | hzero | hpos
    · have hless : unit * (length + 1 : Nat) ≤ -1 * (length + 1 : Nat) :=
        Int.mul_le_mul_of_nonneg_right (by omega) hlong
      have hexact : unit * steps ≤ unit * (length + 1 : Nat) :=
        Int.mul_le_mul_of_nonpos_left (by omega) (by omega)
      omega
    · simp only [hzero, Int.zero_mul]
      omega
    · have hmore : 1 * (length + 1 : Nat) ≤ unit * (length + 1 : Nat) :=
        Int.mul_le_mul_of_nonneg_right (by omega) hlong
      have hexact : unit * (length + 1 : Nat) ≤ unit * steps :=
        Int.mul_le_mul_of_nonneg_left (by omega) (by omega)
      omega

namespace SelectionSet

variable {set : SelectionSet} {length : Nat}

/-- A movement replaces every cursor by the offset that is closest to where it would lead. -/
theorem Valid.moveBy_eq (h : set.Valid length) (hlength : length < lastOffset) (unit : Int)
    (steps : Nat) (extend : Bool) :
    set.moveBy (unit * min (min steps lastOffset) (length + 1)) extend length =
      ofList (set.selections.map fun s =>
        let cursor := closest length (s.cursor + unit * steps)
        if extend then ⟨s.anchor, cursor⟩ else .point cursor) set.main := by
  unfold moveBy moveCursors
  rw [h.replaceEach_singleton]
  congr 1
  apply List.map_congr_left
  intro s hs
  obtain ⟨hanchor, hcursor⟩ := Selection.last_le_iff.1 (h.last_le s hs)
  simp only [Nat.min_eq_left hanchor, min_shift_eq_closest hlength hcursor]

end SelectionSet

/-! ## Moving in words -/

namespace Word

/-- The largest word. -/
def last : UInt64 := 0xffffffffffffffff

/-- What a movement by the given unit adds to an offset.  The count is cut down to one more than the
length first. -/
def displacement (unit : Int64) (count length : UInt64) : Int64 :=
  unit * (min count (length + 1)).toInt64

/-- Move a word by a signed one and stop at either end. -/
def shift (displacement : Int64) (offset : UInt64) : UInt64 :=
  if displacement < 0 then
    let back := (-(displacement + 1)).toUInt64 + 1
    if offset < back then 0 else offset - back
  else
    let ahead := displacement.toUInt64
    if last - ahead < offset then last else offset + ahead

/-- Where a cursor moves in a file of the given length. -/
def target (unit : Int64) (count length cursor : UInt64) : UInt64 :=
  min (shift (displacement unit count length) cursor) length

@[simp] theorem toNat_last : last.toNat = lastOffset := rfl

theorem toNat_toUInt64 {n : Int64} (h : 0 ≤ n.toInt) : (n.toUInt64.toNat : Int) = n.toInt := by
  rw [Int64.toNat_toUInt64_of_le (Int64.le_iff_toInt_le.2 h), ← Int64.toNat_toInt]
  omega

theorem toInt_toInt64 {n : UInt64} (h : n.toNat < 2 ^ 63) : n.toInt64.toInt = n.toNat := by
  rw [← Int64.toInt_ofNat_of_lt h, ← UInt64.toInt64_ofNat', UInt64.ofNat_toNat]

/-- The size of a negative word is found without negating the smallest one. -/
theorem toNat_neg_add_one {n : Int64} (h : n.toInt < 0) :
    ((-(n + 1)).toUInt64 + 1).toNat = n.toInt.natAbs := by
  have hmin := n.le_toInt
  have hnext : (-(n + 1)).toInt = -(n.toInt + 1) := by
    rw [Int64.toInt_neg, Int64.toInt_add, Int64.toInt_one,
      Int.bmod_eq_of_le (n := n.toInt + 1) (by omega) (by omega),
      Int.bmod_eq_of_le (by omega) (by omega)]
  have hsize := toNat_toUInt64 (n := -(n + 1)) (by omega)
  rw [UInt64.toNat_add, UInt64.toNat_one]
  omega

/-- Moving a word moves the offset, whatever the displacement. -/
theorem toNat_shift (displacement : Int64) (offset : UInt64) :
    (shift displacement offset).toNat =
      HexEditor.shift displacement.toInt offset.toNat := by
  have hoffset : offset.toNat ≤ lastOffset := Nat.le_of_lt_succ offset.toNat_lt
  have hsign : displacement < 0 ↔ displacement.toInt < 0 := Int64.lt_iff_toInt_lt
  unfold shift HexEditor.shift
  dsimp only
  by_cases hneg : displacement.toInt < 0
  · rw [if_pos (hsign.2 hneg)]
    have hback := toNat_neg_add_one hneg
    generalize (-(displacement + 1)).toUInt64 + 1 = back at hback
    split_ifs with hstart
    · rw [UInt64.lt_iff_toNat_lt] at hstart
      simp only [UInt64.toNat_zero]
      omega
    · rw [UInt64.lt_iff_toNat_lt, Nat.not_lt] at hstart
      rw [UInt64.toNat_sub_of_le _ _ hstart]
      omega
  · rw [if_neg (mt hsign.1 hneg)]
    have hahead := toNat_toUInt64 (Int.not_lt.1 hneg)
    generalize displacement.toUInt64 = ahead at hahead
    have hroom : last - ahead < offset ↔ lastOffset < offset.toNat + ahead.toNat := by
      have hle : ahead.toNat ≤ lastOffset := Nat.le_of_lt_succ ahead.toNat_lt
      rw [UInt64.lt_iff_toNat_lt, UInt64.toNat_sub_of_le _ _ hle, toNat_last]
      omega
    split_ifs with hend
    · have hgt := hroom.1 hend
      rw [toNat_last]
      omega
    · have hle := mt hroom.2 hend
      have hsum : offset.toNat + ahead.toNat < 2 ^ 64 := by
        simp only [lastOffset, offsetCount] at hle
        omega
      rw [UInt64.toNat_add, Nat.mod_eq_of_lt hsum]
      omega

/-- A count is cut down before it is multiplied, so the product stays within the words. -/
theorem toInt_displacement {unit : Int64} {length : UInt64} (hunit : unit.toInt ≠ 0)
    (hroom : (length.toNat + 1) * unit.toInt.natAbs < 2 ^ 63) (count : UInt64) :
    (displacement unit count length).toInt =
      unit.toInt * min count.toNat (length.toNat + 1) := by
  have hlength : length.toNat + 1 < 2 ^ 63 :=
    Nat.lt_of_le_of_lt (Nat.le_mul_of_pos_right _ (Int.natAbs_pos.2 hunit)) hroom
  have hsteps : (min count (length + 1)).toNat = min count.toNat (length.toNat + 1) := by
    rw [UInt64.toNat_min, UInt64.toNat_add, UInt64.toNat_one, Nat.mod_eq_of_lt (by omega)]
  unfold displacement
  rw [← hsteps]
  generalize min count (length + 1) = steps at hsteps
  have hsigned : steps.toInt64.toInt = steps.toNat := toInt_toInt64 (by omega)
  have hproduct : (unit.toInt * steps.toNat).natAbs < 2 ^ 63 := by
    rw [Int.natAbs_mul, Int.natAbs_natCast, Nat.mul_comm, hsteps]
    exact Nat.lt_of_le_of_lt (Nat.mul_le_mul_right _ (Nat.min_le_right _ _)) hroom
  rw [Int64.toInt_mul, hsigned]
  exact Int.bmod_eq_of_le (by omega) (by omega)

/-- The word to which a cursor moves is the offset to which it moves. -/
theorem toNat_target {unit : Int64} {length : UInt64} (hunit : unit.toInt ≠ 0)
    (hroom : (length.toNat + 1) * unit.toInt.natAbs < 2 ^ 63) (count cursor : UInt64) :
    (target unit count length cursor).toNat =
      min (HexEditor.shift (unit.toInt * min count.toNat (length.toNat + 1)) cursor.toNat)
        length.toNat := by
  unfold target
  rw [UInt64.toNat_min, toNat_shift, toInt_displacement hunit hroom]

/-- Numbers that fit into the words move as they do without any bound. -/
theorem toNat_target_eq_closest {unit : Int} {length cursor steps : Nat} {count : UInt64}
    (hunit : unit ≠ 0) (hroom : (length + 1) * unit.natAbs < 2 ^ 63) (hcursor : cursor ≤ length)
    (hcount : count.toNat = min steps lastOffset) :
    (target (.ofInt unit) count (.ofNat length) (.ofNat cursor)).toNat =
      closest length (cursor + unit * steps) := by
  have hlong : length + 1 < 2 ^ 63 :=
    Nat.lt_of_le_of_lt (Nat.le_mul_of_pos_right _ (Int.natAbs_pos.2 hunit)) hroom
  have hsmall : unit.natAbs < 2 ^ 63 :=
    Nat.lt_of_le_of_lt (Nat.le_mul_of_pos_left _ (Nat.succ_pos _)) hroom
  have hlength : length < lastOffset := by
    simp only [lastOffset, offsetCount]
    omega
  have hsigned : (Int64.ofInt unit).toInt = unit :=
    Int64.toInt_ofInt_of_le (by omega) (by omega)
  have hsize : (UInt64.ofNat length).toNat = length := Nat.mod_eq_of_lt (by omega)
  have hoffset : (UInt64.ofNat cursor).toNat = cursor := Nat.mod_eq_of_lt (by omega)
  rw [toNat_target (by rwa [hsigned]) (by rwa [hsigned, hsize]), hsigned, hsize, hoffset, hcount,
    min_shift_eq_closest hlength hcursor]

end Word

end HexEditor
