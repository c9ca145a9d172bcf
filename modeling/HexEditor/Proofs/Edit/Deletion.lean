import HexEditor.Proofs.Edit.Removal
import HexEditor.Proofs.Edit.Restore
import HexEditor.Proofs.Selection.Components
import HexEditor.Proofs.Selection.Points

/-!
# What deleting leaves

Deleting leaves the bytes that no selection covers, and every selection becomes the point where
it began, moved to the left by as many bytes as have been covered in front of it.  Selections
that border on each other leave the same point, which is then held once; the main selection is
the point that the main one has left.  As lengths are words, the file has to leave room for the
offset behind its end.

Main results:

- Theorem `LocalEdit.patch_deletions`: the bytes that deletions leave.
- Theorem `LocalEdit.settle_deletions`: the points that deletions leave.
- Theorem `Rope.delete_keeps_uncovered`: deleting, with all that it leaves.
-/

namespace HexEditor

/-! ## Deleting -/

namespace LocalEdit

open Selection

variable {selections : List Selection} {offset length : Nat} {bytes : Bytes}

/-- Deletions take what is covered. -/
theorem taken_deletions_iff (hlast : ∀ s ∈ selections, s.last ≤ length)
    (hlength : length < lastOffset) {k : Nat} (hk : k < length) :
    Taken (selections.map (deletion length)) k ↔ Covered selections k := by
  have hrange : ∀ s ∈ selections,
      (s.deletion length).range = ⟨s.first, min (s.last + 1) length⟩ :=
    fun s hs => covered_eq (hlast s hs) hlength
  constructor
  · rintro ⟨e, he, hlow, hhigh⟩
    rcases List.mem_map.1 he with ⟨s, hs, rfl⟩
    rw [hrange s hs] at hlow hhigh
    dsimp only at hlow hhigh
    exact ⟨s, hs, hlow, by omega⟩
  · rintro ⟨s, hs, hlow, hhigh⟩
    refine ⟨s.deletion length, List.mem_map_of_mem hs, ?_⟩
    rw [hrange s hs]
    dsimp only
    omega

/-- Deletions leave the bytes that are not covered. -/
theorem patch_deletions (hchained : Chained offset length (selections.map (deletion length)))
    (hlast : ∀ s ∈ selections, s.last ≤ length) (hlength : length < lastOffset)
    (hbytes : offset + bytes.length = length) :
    patch offset bytes (selections.map (deletion length)) =
      without (Covered selections) offset bytes := by
  have hremoves : ∀ e ∈ selections.map (deletion length), e.replacement = [] := by
    simp [deletion]
  rw [patch_removals hchained hremoves hbytes]
  apply without_congr
  intro k _ hk
  exact taken_deletions_iff hlast hlength (by omega)

/-- Deletions leave the points where the selections began, moved to the left by what is covered
in front of them. -/
theorem settle_deletions (hchained : Chained offset length (selections.map (deletion length)))
    (hlast : ∀ s ∈ selections, s.last ≤ length) (hlength : length < lastOffset) :
    settle 0 (selections.map (deletion length)) =
      selections.map fun s => point (s.first - Nat.count (Covered selections) s.first) := by
  have hremoves : ∀ e ∈ selections.map (deletion length), e.replacement = [] := by
    simp [deletion]
  have hsettle := settle_removals hchained hremoves hlength.le 0
  rw [Int.natCast_zero, Int.neg_zero, List.map_map] at hsettle
  rw [hsettle]
  apply List.map_congr_left
  intro s hs
  have hfirst := s.first_le_last.trans (hlast s hs)
  have hstart : (s.deletion length).range.start = s.first :=
    congrArg Range.start (covered_eq (hlast s hs) hlength)
  have hcount : Nat.count (Taken (selections.map (deletion length))) s.first =
      Nat.count (Covered selections) s.first :=
    count_congr fun k hk => taken_deletions_iff hlast hlength (by omega)
  rw [Function.comp_apply, after_deletion (hlast s hs) hlength, hstart, hcount, Nat.zero_add,
    shifted_point (by omega)]

end LocalEdit

namespace Rope

open Selection

variable {rope : Rope} {set : SelectionSet}

/-- Where a selection that begins at an offset is left by deleting. -/
def leftAt (selections : List Selection) (offset : Nat) : Nat :=
  offset - Nat.count (Covered selections) offset

/-- Deleting leaves the bytes that no selection covers, in order.  The selections are the points
where they began, moved to the left by the bytes covered in front of them; equal points become
one, and the main selection is the point of the old one. -/
theorem delete_keeps_uncovered (h : rope.Sound) (hset : set.Valid rope.length)
    (hlength : rope.length < lastOffset) :
    ∃ e, rope.delete set = .ok e ∧
      e.buffer.toBytes =
        (rope.toBytes.zipIdx.filter fun b => ¬ Covered set.selections b.2).map Prod.fst ∧
      e.selections.selections =
        (set.selections.map fun s =>
          point (s.first - Nat.count (Covered set.selections) s.first)).dedup ∧
      e.selections.mainSelection =
        point (set.mainSelection.first -
          Nat.count (Covered set.selections) set.mainSelection.first) ∧
      e.selections.Valid e.buffer.length := by
  have hlast := hset.last_le
  have hchained := LocalEdit.chained_deletions hset.separate rope.length
  rcases h.exists_spliceAll_eq_patch hchained with ⟨next, hnext, hsound, hbytes⟩
  rw [List.take_zero, List.drop_zero, List.nil_append,
    LocalEdit.patch_deletions hchained hlast hlength (by rw [h.length_eq, Nat.zero_add])] at hbytes
  -- the points that are left lie in order, and in what is left of the file
  have hsettled : LocalEdit.remaining (set.selections.map (deletion rope.length)) =
      (set.selections.map fun s => leftAt set.selections s.first).map point := by
    rw [LocalEdit.remaining_eq_settle, List.map_map]
    exact LocalEdit.settle_deletions hchained hlast hlength
  have hsorted : (set.selections.map fun s => leftAt set.selections s.first).Pairwise (· ≤ ·) := by
    rw [List.pairwise_map]
    exact hset.sorted.imp fun hst => sub_count_mono _ hst.le
  have hwithin : ∀ p ∈ set.selections.map (fun s => leftAt set.selections s.first),
      p ≤ next.length := by
    intro p hp
    rcases List.mem_map.1 hp with ⟨s, hs, rfl⟩
    have hle := s.first_le_last.trans (hlast s hs)
    rw [hsound.length_eq, hbytes, length_without, ← h.length_eq]
    exact sub_count_mono _ hle
  have hmain : set.main < (set.selections.map fun s => leftAt set.selections s.first).length := by
    rw [List.length_map]
    exact hset.main_lt
  rcases SelectionSet.ofList_points hmain hsorted hwithin with ⟨hselections, hpoint⟩
  have hvalid : (SelectionSet.ofList
      ((set.selections.map fun s => leftAt set.selections s.first).map point) set.main).Valid
        next.length := by
    apply SelectionSet.valid_ofList
    intro s hs
    rcases List.mem_map.1 hs with ⟨p, hp, rfl⟩
    rw [last_point]
    exact hwithin p hp
  have hedited : rope.delete set = .ok ⟨next, SelectionSet.ofList
      ((set.selections.map fun s => leftAt set.selections s.first).map point) set.main⟩ := by
    change rope.applyEdits set (fun s _ => deletion rope.length s) = _
    rw [applyEdits_eq, LocalEdit.map_zipIdx_eq_map, hnext, hsettled]
    exact congrArg (fun set => Except.ok (Edited.mk next set)) hvalid.clamped_eq
  refine ⟨_, hedited, hbytes, ?_, ?_, hvalid⟩
  · rw [hselections, ← List.dedup_map_of_injective point_injective, List.map_map]
    rfl
  · rw [hpoint, List.getElem_map, SelectionSet.mainSelection, List.getD_eq_getElem?_getD,
      List.getElem?_eq_getElem hset.main_lt]
    rfl

/-- Two selections that border on each other leave one point, and a third one behind the last byte
follows it. -/
theorem delete_keeps_uncovered_bordering :
    ∃ e, (Rope.ofBytes [1, 2, 3, 4, 5]).delete ⟨[⟨2, 1⟩, .point 3, .point 5], 1⟩ = .ok e ∧
      e.buffer.toBytes = [1, 5] ∧ e.selections.selections = [.point 1, .point 2] ∧
      e.selections.mainSelection = .point 1 := by
  have hsound := sound_ofBytes [1, 2, 3, 4, 5]
  have hlength : (Rope.ofBytes [1, 2, 3, 4, 5]).length = 5 := by
    rw [hsound.length_eq, toBytes_ofBytes]
    rfl
  have hvalid : SelectionSet.Valid ⟨[⟨2, 1⟩, .point 3, .point 5], 1⟩
      (Rope.ofBytes [1, 2, 3, 4, 5]).length := by
    rw [hlength]
    exact ⟨by decide, by decide, by decide⟩
  rcases delete_keeps_uncovered hsound hvalid (by rw [hlength]; decide) with
    ⟨e, he, hbytes, hselections, hmain, -⟩
  rw [toBytes_ofBytes] at hbytes
  refine ⟨e, he, hbytes.trans ?_, hselections.trans ?_, hmain.trans ?_⟩
  · decide
  · decide
  · decide

end Rope

end HexEditor
