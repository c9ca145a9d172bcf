import HexEditor.Proofs.Edit.Removal
import HexEditor.Proofs.Selection.Components

/-!
# What erasing single bytes leaves

The erasing keys take one byte for every selection: the one in front of it, its first one, or the
one behind it.  A byte that is taken for one selection may lie below another one.  This happens
when two selections border on each other: the byte in front of the one is the last byte of the
other, and the byte behind the other is the first byte of the one.

All bytes that are not taken land as many offsets further to the left as bytes have been taken in
front of them.  The selections are moved in the same way, but each of them is changed as if only
its own byte had been taken.

Main results:

- Definition `Erasure` and theorem `Erasure.apply_eq`: the erasing operations as edits.
- Definition `Erasure.Erased` and `Erasure.landing`: the offsets that are taken, and where the
  others land.
- Theorems `Erasure.ends_left_before`, `Erasure.ends_left_first` and `Erasure.ends_left_behind`:
  what each selection becomes.
- Theorem `Rope.Sound.exists_erasure`: the bytes and the selections that erasing leaves.
-/

namespace HexEditor

/-! ## The operations -/

/-- An operation that takes one byte for every selection. -/
inductive Erasure where
  /-- The byte in front of it. -/
  | before
  /-- Its first byte. -/
  | first
  /-- The byte behind it. -/
  | behind
deriving DecidableEq

namespace Erasure

/-- Carry out the operation. -/
def apply : Erasure → Rope → SelectionSet → Except RangeError Edited
  | before, rope, set => rope.eraseBefore set .before
  | first, rope, set => rope.eraseAt set .before
  | behind, rope, set => rope.eraseAt set .after

/-- The offset is the one that is taken for the selection. -/
def Takes : Erasure → Selection → Nat → Prop
  | before, s, offset => offset + 1 = s.first
  | first, s, offset => offset = s.first
  | behind, s, offset => offset = s.last + 1

instance (erasure : Erasure) (s : Selection) : DecidablePred (erasure.Takes s) := fun offset =>
  match erasure with
  | before => inferInstanceAs (Decidable (offset + 1 = s.first))
  | first => inferInstanceAs (Decidable (offset = s.first))
  | behind => inferInstanceAs (Decidable (offset = s.last + 1))

/-- A byte at the offset is taken for one of the selections. -/
def Erased (erasure : Erasure) (selections : List Selection) (length offset : Nat) : Prop :=
  offset < length ∧ ∃ s ∈ selections, erasure.Takes s offset

instance (erasure : Erasure) (selections : List Selection) (length : Nat) :
    DecidablePred (erasure.Erased selections length) := fun offset =>
  inferInstanceAs (Decidable (offset < length ∧ ∃ s ∈ selections, erasure.Takes s offset))

/-- What one selection contributes to the operation, in a file of the given length. -/
def edit (erasure : Erasure) (length : Nat) (s : Selection) : LocalEdit :=
  match erasure with
  | before =>
    if min s.first length = 0 then ⟨⟨0, 0⟩, [], s⟩
    else ⟨⟨min s.first length - 1, min s.first length⟩, [], s.shifted (-1)⟩
  | first =>
    if length ≤ s.first then ⟨⟨length, length⟩, [], s⟩
    else
      ⟨⟨s.first, s.first + 1⟩, [],
        if s.first < s.last then .oriented s.isBackward s.first (s.last - 1)
        else .point s.first⟩
  | behind =>
    if length ≤ s.behind then ⟨⟨length, length⟩, [], s⟩
    else ⟨⟨s.behind, s.behind + 1⟩, [], s⟩

theorem apply_eq (erasure : Erasure) (rope : Rope) (set : SelectionSet) :
    erasure.apply rope set = rope.applyEdits set fun s _ => erasure.edit rope.length s := by
  cases erasure with
  | before => simp [apply, edit, Rope.eraseBefore, Selection.insertionPoint]
  | first => rfl
  | behind => rfl

theorem replacement_edit (erasure : Erasure) (length : Nat) (s : Selection) :
    (erasure.edit length s).replacement = [] := by
  unfold edit
  split <;> split_ifs <;> rfl

section Edit

variable {erasure : Erasure} {set : SelectionSet} {s : Selection} {length k : Nat}

/-- The range of an edit holds what is taken for the selection, if there is a byte. -/
theorem range_edit (erasure : Erasure) (hlast : s.last ≤ length)
    (hlength : length < lastOffset) :
    (erasure.edit length s).range.start ≤ (erasure.edit length s).range.stop ∧
      (erasure.edit length s).range.stop ≤ length ∧
      ∀ k, ((erasure.edit length s).range.start ≤ k ∧ k < (erasure.edit length s).range.stop) ↔
        k < length ∧ erasure.Takes s k := by
  have hfirst := s.first_le_last
  have hbehind := Selection.behind_eq hlast hlength
  cases erasure <;> simp only [edit, Takes] <;> split_ifs <;> dsimp only <;>
    refine ⟨by omega, by omega, fun k => by omega⟩

/-- The edits of a valid set follow one another. -/
theorem chained_edits (erasure : Erasure) (hset : set.Valid length)
    (hlength : length < lastOffset) :
    LocalEdit.Chained 0 length (set.selections.map (erasure.edit length)) := by
  apply LocalEdit.InOrder.chained
  constructor
  · rw [List.pairwise_map]
    apply hset.separate.imp_of_mem
    intro s t hs ht hst
    have hfirst := s.first_le_last
    have hfirst' := t.first_le_last
    have hs' := hset.last_le s hs
    have ht' := hset.last_le t ht
    have hbehind := Selection.behind_eq hs' hlength
    have hbehind' := Selection.behind_eq ht' hlength
    cases erasure <;> simp only [edit] <;> split_ifs <;> dsimp only <;> omega
  · intro e he
    rcases List.mem_map.1 he with ⟨s, hs, rfl⟩
    rcases range_edit erasure (hset.last_le s hs) hlength with ⟨hproper, hstop, -⟩
    exact ⟨hproper, hstop⟩

theorem taken_edits_iff (hset : set.Valid length) (hlength : length < lastOffset) :
    LocalEdit.Taken (set.selections.map (erasure.edit length)) k ↔
      erasure.Erased set.selections length k := by
  constructor
  · rintro ⟨e, he, hk⟩
    rcases List.mem_map.1 he with ⟨s, hs, rfl⟩
    rcases ((range_edit erasure (hset.last_le s hs) hlength).2.2 k).1 hk with ⟨hlt, htakes⟩
    exact ⟨hlt, s, hs, htakes⟩
  · rintro ⟨hlt, s, hs, htakes⟩
    exact ⟨_, List.mem_map_of_mem hs,
      ((range_edit erasure (hset.last_le s hs) hlength).2.2 k).2 ⟨hlt, htakes⟩⟩

end Edit

/-! ## Where bytes land -/

/-- How many offsets are left in front of an offset. -/
def landing (erasure : Erasure) (selections : List Selection) (length offset : Nat) : Nat :=
  Nat.count (fun k => ¬ erasure.Erased selections length k) offset

section Landing

variable {erasure : Erasure} {selections : List Selection} {length k low high : Nat}

theorem count_add_landing (erasure : Erasure) (selections : List Selection) (length offset : Nat) :
    Nat.count (erasure.Erased selections length) offset +
      erasure.landing selections length offset = offset :=
  count_add_count_not _ offset

theorem landing_mono (h : low ≤ high) :
    erasure.landing selections length low ≤ erasure.landing selections length high :=
  Nat.count_monotone _ h

theorem landing_lt (hk : ¬ erasure.Erased selections length k) (h : k < high) :
    erasure.landing selections length k < erasure.landing selections length high :=
  Nat.count_strict_mono hk h

theorem landing_succ (hk : ¬ erasure.Erased selections length k) :
    erasure.landing selections length (k + 1) = erasure.landing selections length k + 1 :=
  Nat.count_succ_eq_succ_count_iff.2 hk

theorem landing_succ_of_erased (hk : erasure.Erased selections length k) :
    erasure.landing selections length (k + 1) = erasure.landing selections length k :=
  Nat.count_succ_eq_count_iff.2 (not_not_intro hk)

theorem landing_eq_add (hle : low ≤ high)
    (h : ∀ k, low ≤ k → k < high → ¬ erasure.Erased selections length k) :
    erasure.landing selections length high =
      erasure.landing selections length low + (high - low) :=
  count_eq_add hle h

/-- Behind the last byte nothing is taken. -/
theorem not_erased_of_le (h : length ≤ k) : ¬ erasure.Erased selections length k :=
  fun herased => absurd herased.1 (Nat.not_lt.2 h)

/-- Every place in what is left is one where a byte lands, or the end. -/
theorem exists_landing_eq {j : Nat} (hj : j ≤ erasure.landing selections length length) :
    ∃ k ≤ length, ¬ erasure.Erased selections length k ∧
      erasure.landing selections length k = j := by
  by_cases hend : j = erasure.landing selections length length
  · exact ⟨length, Nat.le_refl _, not_erased_of_le (Nat.le_refl _), hend.symm⟩
  · rcases exists_of_lt_count (p := fun k => ¬ erasure.Erased selections length k)
      (Nat.lt_of_le_of_ne hj hend) with ⟨k, hk, hkept, hlands⟩
    exact ⟨k, hk.le, hkept, hlands⟩

end Landing

/-! ## What the selections become -/

/-- What a selection has become when everything has been erased. -/
def left (erasure : Erasure) (selections : List Selection) (length : Nat) (s : Selection) :
    Selection :=
  (erasure.edit length s).after.shifted
    (-(Nat.count (erasure.Erased selections length) (erasure.edit length s).range.start : Int))

section Left

variable {erasure : Erasure} {set : SelectionSet} {s t : Selection} {length k : Nat}

/-- Within a selection, only the last byte lies in front of another one. -/
theorem not_erased_before (hset : set.Valid length) (hs : s ∈ set.selections)
    (hlow : s.first ≤ k) (hhigh : k < s.last) :
    ¬ before.Erased set.selections length k := by
  rintro ⟨-, t, ht, htakes⟩
  have hfirst := t.first_le_last
  have htakes' : k + 1 = t.first := htakes
  have hequal : s = t :=
    hset.eq_of_shared hs ht (show s.first ≤ t.first ∧ t.first ≤ s.last by omega) (by omega)
  rw [← hequal] at htakes'
  omega

/-- Within a selection, only the first byte is the first one of a selection or lies behind one. -/
theorem not_erased_inside (herasure : erasure ≠ before) (hset : set.Valid length)
    (hs : s ∈ set.selections) (hlow : s.first < k) (hhigh : k ≤ s.last) :
    ¬ erasure.Erased set.selections length k := by
  rintro ⟨-, t, ht, htakes⟩
  have hfirst := t.first_le_last
  cases erasure with
  | before => exact herasure rfl
  | first =>
      have htakes' : k = t.first := htakes
      have hequal : s = t := hset.eq_of_shared hs ht ⟨hlow.le, hhigh⟩ (by omega)
      rw [← hequal] at htakes'
      omega
  | behind =>
      have htakes' : k = t.last + 1 := htakes
      have hequal : s = t :=
        hset.eq_of_shared hs ht (show s.first ≤ t.last ∧ t.last ≤ s.last by omega) (by omega)
      rw [← hequal] at htakes'
      omega

theorem ends_shifted_back {n : Nat} (hfirst : n ≤ s.first) (hlast : s.last ≤ lastOffset) :
    (s.shifted (-(n : Int))).first = s.first - n ∧ (s.shifted (-(n : Int))).last = s.last - n := by
  have hends := s.first_le_last
  have hlow := Selection.first_shifted (s := s) (k := -(n : Int)) (by omega) (by omega)
  have hhigh := Selection.last_shifted (s := s) (k := -(n : Int)) (by omega) (by omega)
  omega

/-- Taking the bytes in front leaves the places where both ends land. -/
theorem ends_left_before (hset : set.Valid length) (hlength : length < lastOffset)
    (hs : s ∈ set.selections) :
    (before.left set.selections length s).first = before.landing set.selections length s.first ∧
      (before.left set.selections length s).last = before.landing set.selections length s.last := by
  have hlast := hset.last_le s hs
  have hends := s.first_le_last
  have hinside := landing_eq_add hends fun _ => not_erased_before hset hs
  have hcount := count_add_landing before set.selections length s.first
  have hmin : min s.first length = s.first := by omega
  by_cases hzero : s.first = 0
  · have hedit : before.edit length s = ⟨⟨0, 0⟩, [], s⟩ := by simp [edit, hzero]
    have hshifted := ends_shifted_back (s := s) (Nat.zero_le _) (by omega)
    simp only [left, hedit, Nat.count_zero]
    omega
  · have hedit : before.edit length s = ⟨⟨s.first - 1, s.first⟩, [], s.shifted (-1)⟩ := by
      simp [edit, hmin, hzero]
    have herased : before.Erased set.selections length (s.first - 1) :=
      ⟨by omega, s, hs, Nat.sub_add_cancel (Nat.pos_of_ne_zero hzero)⟩
    have hlanding := landing_succ_of_erased herased
    have hcount' := count_add_landing before set.selections length (s.first - 1)
    rw [Nat.sub_add_cancel (Nat.pos_of_ne_zero hzero)] at hlanding
    have hone := ends_shifted_back (s := s) (n := 1) (by omega) (by omega)
    rw [Nat.cast_one] at hone
    have hshifted := ends_shifted_back (s := s.shifted (-1))
      (n := Nat.count (before.Erased set.selections length) (s.first - 1)) (by omega) (by omega)
    simp only [left, hedit]
    omega

/-- Taking the first bytes leaves the places where both ends land.  A selection becomes shorter by
one, unless it is a point. -/
theorem ends_left_first (hset : set.Valid length) (hlength : length < lastOffset)
    (hs : s ∈ set.selections) :
    (first.left set.selections length s).first = first.landing set.selections length s.first ∧
      (first.left set.selections length s).last = first.landing set.selections length s.last := by
  have hlast := hset.last_le s hs
  have hends := s.first_le_last
  have hcount := count_add_landing first set.selections length s.first
  -- what is left if nothing else is erased
  have hafter : (first.edit length s).range.start = s.first ∧
      (first.edit length s).after.first = s.first ∧
      (first.edit length s).after.last = s.first + (s.last - 1 - s.first) := by
    simp only [edit]
    split_ifs with hend hlong
    · dsimp only
      omega
    · rw [Selection.first_oriented _ (by omega), Selection.last_oriented]
      dsimp only
      omega
    · rw [Selection.first_point, Selection.last_point]
      dsimp only
      omega
  have hlands : first.landing set.selections length s.last =
      first.landing set.selections length s.first + (s.last - 1 - s.first) := by
    by_cases hlong : s.first < s.last
    · have herased : first.Erased set.selections length s.first := ⟨by omega, s, hs, rfl⟩
      have hlanding := landing_succ_of_erased herased
      have hinside := landing_eq_add (show s.first + 1 ≤ s.last from hlong) fun _ hlow hhigh =>
        not_erased_inside (show first ≠ before by decide) hset hs hlow hhigh.le
      omega
    · rw [show s.last = s.first by omega]
      omega
  have hshifted := ends_shifted_back (s := (first.edit length s).after)
    (n := Nat.count (first.Erased set.selections length) s.first) (by omega) (by omega)
  rw [left, hafter.1]
  omega

/-- Taking the bytes behind leaves the places in front of those where the ends behind both ends
land. -/
theorem ends_left_behind (hset : set.Valid length) (hlength : length < lastOffset)
    (hs : s ∈ set.selections) :
    (behind.left set.selections length s).first + 1 =
        behind.landing set.selections length (s.first + 1) ∧
      (behind.left set.selections length s).last + 1 =
        behind.landing set.selections length (s.last + 1) := by
  have hlast := hset.last_le s hs
  have hends := s.first_le_last
  have hbehind := Selection.behind_eq hlast hlength
  have hinside := landing_eq_add (show s.first + 1 ≤ s.last + 1 by omega) fun _ hlow hhigh =>
    not_erased_inside (show behind ≠ before by decide) hset hs hlow
      (Nat.le_of_lt_succ hhigh)
  have hcount := count_add_landing behind set.selections length (s.last + 1)
  -- no selection ends in front of the first byte
  have hpos : 1 ≤ behind.landing set.selections length (s.first + 1) := by
    have hzero : ¬ behind.Erased set.selections length 0 := by
      rintro ⟨-, t, -, htakes⟩
      have htakes' : 0 = t.last + 1 := htakes
      omega
    have hlt := landing_lt hzero (show 0 < s.first + 1 by omega)
    omega
  have hstart : Nat.count (behind.Erased set.selections length) (behind.edit length s).range.start =
      Nat.count (behind.Erased set.selections length) (s.last + 1) := by
    simp only [edit, hbehind]
    split_ifs with hend
    · have hbeyond : behind.landing set.selections length (s.last + 1) =
          behind.landing set.selections length length + (s.last + 1 - length) :=
        landing_eq_add hend fun _ hlow _ => not_erased_of_le hlow
      have hcount' := count_add_landing behind set.selections length length
      dsimp only
      omega
    · rfl
  have hafter : (behind.edit length s).after = s := by
    simp only [edit]
    split_ifs <;> rfl
  have hshifted := ends_shifted_back (s := s)
    (n := Nat.count (behind.Erased set.selections length) (s.last + 1)) (by omega) (by omega)
  rw [left, hafter, hstart]
  omega

/-- What the set.selections become lies in what is left of the file. -/
theorem last_left_le (hset : set.Valid length) (hlength : length < lastOffset)
    (hs : s ∈ set.selections) :
    (erasure.left set.selections length s).last ≤ erasure.landing set.selections length length := by
  cases erasure with
  | before =>
      rw [(ends_left_before hset hlength hs).2]
      exact landing_mono (hset.last_le s hs)
  | first =>
      rw [(ends_left_first hset hlength hs).2]
      exact landing_mono (hset.last_le s hs)
  | behind =>
      have hlast := hset.last_le s hs
      have hends := (ends_left_behind hset hlength hs).2
      have hmono : behind.landing set.selections length (s.last + 1) ≤
          behind.landing set.selections length (length + 1) := landing_mono (by omega)
      have hend : behind.landing set.selections length (length + 1) =
          behind.landing set.selections length length + 1 :=
        landing_succ (not_erased_of_le (Nat.le_refl length))
      omega

end Left

end Erasure

/-! ## Carrying out the operations -/

open Erasure in
/-- Erasing leaves the bytes that are not taken and the set of what the selections become. -/
theorem Rope.Sound.exists_erasure {rope : Rope} {set : SelectionSet} (h : rope.Sound)
    (hset : set.Valid rope.length) (hlength : rope.length < lastOffset) (erasure : Erasure) :
    ∃ next : Rope, next.Sound ∧
      next.toBytes = without (erasure.Erased set.selections rope.length) 0 rope.toBytes ∧
      next.length = erasure.landing set.selections rope.length rope.length ∧
      erasure.apply rope set = .ok ⟨next, SelectionSet.ofList
        (set.selections.map (erasure.left set.selections rope.length)) set.main⟩ := by
  have hchained := chained_edits erasure hset hlength
  have hremoves : ∀ e ∈ set.selections.map (erasure.edit rope.length), e.replacement = [] := by
    simp [replacement_edit]
  rcases h.exists_spliceAll_removals hchained hremoves with ⟨next, hnext, hsound, hbytes, -⟩
  rw [without_congr (q := erasure.Erased set.selections rope.length) fun _ _ _ =>
    taken_edits_iff hset hlength] at hbytes
  have hcount := count_add_landing erasure set.selections rope.length rope.length
  have hlands : next.length = erasure.landing set.selections rope.length rope.length := by
    rw [hsound.length_eq, hbytes, length_without, ← h.length_eq]
    omega
  have hsettled : LocalEdit.remaining (set.selections.map (erasure.edit rope.length)) =
      set.selections.map (erasure.left set.selections rope.length) := by
    have hsettle := LocalEdit.settle_removals hchained hremoves hlength.le 0
    rw [Int.natCast_zero, Int.neg_zero, List.map_map] at hsettle
    rw [LocalEdit.remaining_eq_settle, hsettle]
    apply List.map_congr_left
    intro s _
    rw [Function.comp_apply, Nat.zero_add,
      count_congr fun k _ => taken_edits_iff hset hlength]
    rfl
  have hvalid : (SelectionSet.ofList
      (set.selections.map (erasure.left set.selections rope.length)) set.main).Valid
        next.length := by
    apply SelectionSet.valid_ofList
    intro t ht
    rcases List.mem_map.1 ht with ⟨s, hs, rfl⟩
    rw [hlands]
    exact last_left_le hset hlength hs
  refine ⟨next, hsound, hbytes, hlands, ?_⟩
  rw [apply_eq, Rope.applyEdits_eq, LocalEdit.map_zipIdx_eq_map, hnext, hsettled]
  exact congrArg (fun set => Except.ok (Edited.mk next set)) hvalid.clamped_eq

end HexEditor
