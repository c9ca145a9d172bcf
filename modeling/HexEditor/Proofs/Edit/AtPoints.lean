import HexEditor.Proofs.Edit.Backspace
import HexEditor.Proofs.Edit.Erasing
import HexEditor.Proofs.Edit.Placement

/-!
# The bytes that the erasing keys take

One of the erasing keys takes the bytes at the points beside the selections, the other one those in
front of the insertion points.  Selections may border on each other, so that the byte that is taken
for one of them lies below another; but the ranges of one byte each are still in order and apart.
Hence splicing from the last of them to the first always meets the offsets of the old version.

Behind the end of the file there is no byte to take.  The insertion points behind two selections can
both be moved back to the end, and then both would take the same byte; this is excluded.

Main results:

- Definition `Selection.edge`: the point at a side of a selection, wherever the file ends.
- Theorem `Selection.chained_backspacing`: different insertion points have different bytes in front
  of them.
- Theorem `Rope.Sound.exists_applyEdits_removals`: edits that take the bytes with a property.
- Theorem `Rope.erasing_takes_points`: the bytes that both keys leave.
-/

namespace HexEditor

namespace Selection

variable {selections : List Selection} {s : Selection} {side : Side} {length k : Nat}

/-- The first offset of the selection, or the one behind its last. -/
def edge (side : Side) (s : Selection) : Nat :=
  match side with
  | .before => s.first
  | .after => s.last + 1

/-! ## In front of the insertion points -/

theorem replacement_backspacing (side : Side) (length : Nat) (s : Selection) :
    (s.backspacing side length).replacement = [] := by
  simp only [backspacing]
  split_ifs <;> rfl

/-- Backspace at a selection takes the byte in front of its insertion point, unless the point is at
the start. -/
theorem range_backspacing (hlast : s.last ≤ length) (hlength : length < lastOffset)
    (side : Side) :
    (s.backspacing side length).range = ⟨s.place side length - 1, s.place side length⟩ := by
  simp only [backspacing, insertionPoint_eq_place hlast hlength]
  by_cases hzero : s.place side length = 0
  · rw [if_pos hzero, hzero]
  · rw [if_neg hzero]

/-- Insertion points that are different are in order, so each of them has a byte of its own in front
of it. -/
theorem chained_backspacing {set : SelectionSet} (hset : set.Valid length)
    (hlength : length < lastOffset)
    (hpoints : set.selections.Pairwise fun s t => s.place side length ≠ t.place side length) :
    LocalEdit.Chained 0 length (set.selections.map (backspacing side length)) := by
  apply LocalEdit.InOrder.chained
  constructor
  · rw [List.pairwise_map]
    apply (hset.separate.and hpoints).imp_of_mem
    rintro s t hs ht ⟨hst, hne⟩
    have hle := insertionPoint_mono hst (hset.last_le t ht) hlength side
    rw [insertionPoint_eq_place (hset.last_le s hs) hlength,
      insertionPoint_eq_place (hset.last_le t ht) hlength] at hle
    rw [range_backspacing (hset.last_le s hs) hlength,
      range_backspacing (hset.last_le t ht) hlength]
    dsimp only
    omega
  · intro e he
    rcases List.mem_map.1 he with ⟨s, hs, rfl⟩
    have hend := s.insertionPoint_le side length
    rw [insertionPoint_eq_place (hset.last_le s hs) hlength] at hend
    rw [range_backspacing (hset.last_le s hs) hlength]
    exact ⟨Nat.sub_le _ _, hend⟩

theorem taken_backspacing_iff (hlast : ∀ s ∈ selections, s.last ≤ length)
    (hlength : length < lastOffset) :
    LocalEdit.Taken (selections.map (backspacing side length)) k ↔
      ∃ s ∈ selections, k + 1 = s.place side length := by
  constructor
  · rintro ⟨e, he, hlow, hhigh⟩
    rcases List.mem_map.1 he with ⟨s, hs, rfl⟩
    rw [range_backspacing (hlast s hs) hlength] at hlow hhigh
    dsimp only at hlow hhigh
    exact ⟨s, hs, by omega⟩
  · rintro ⟨s, hs, hpoint⟩
    refine ⟨_, List.mem_map_of_mem hs, ?_⟩
    rw [range_backspacing (hlast s hs) hlength]
    dsimp only
    omega

end Selection

/-! ## At the sides of the selections -/

/-- The operation that takes the byte at a side of every selection. -/
def Side.erasure : Side → Erasure
  | .before => .first
  | .after => .behind

theorem Side.apply_erasure (side : Side) (rope : Rope) (set : SelectionSet) :
    side.erasure.apply rope set = rope.eraseAt set side := by
  cases side <;> rfl

theorem Side.erased_erasure_iff {side : Side} {selections : List Selection} {length k : Nat} :
    side.erasure.Erased selections length k ↔ k < length ∧ ∃ s ∈ selections, k = s.edge side := by
  cases side <;> rfl

/-! ## What both keys leave -/

namespace Rope

open Selection

variable {rope : Rope} {set : SelectionSet}

/-- Edits of the selections that add nothing leave the bytes without the property that those which
they take have. -/
theorem Sound.exists_applyEdits_removals (h : rope.Sound) {edit : Selection → LocalEdit}
    (hchained : LocalEdit.Chained 0 rope.length (set.selections.map edit))
    (hremoves : ∀ s, (edit s).replacement = []) {p : Nat → Prop} [DecidablePred p]
    (htaken : ∀ k, LocalEdit.Taken (set.selections.map edit) k ↔ p k) :
    ∃ e, rope.applyEdits set (fun s _ => edit s) = .ok e ∧
      e.buffer.toBytes = without p 0 rope.toBytes ∧ ((∀ k, ¬ p k) → e.buffer = rope) := by
  rcases h.exists_spliceAll_removals hchained (by simp [hremoves]) with
    ⟨next, hnext, -, hbytes, hsame⟩
  rw [without_congr (q := p) fun k _ _ => htaken k] at hbytes
  have hok : ∃ e, rope.applyEdits set (fun s _ => edit s) = .ok e ∧ e.buffer = next := by
    rw [applyEdits_eq, LocalEdit.map_zipIdx_eq_map, hnext]
    exact ⟨_, rfl, rfl⟩
  rcases hok with ⟨e, he, rfl⟩
  exact ⟨e, he, hbytes, fun hnone => hsame fun k hk => hnone k ((htaken k).1 hk)⟩

/-- Erasing at the points beside the selections of a valid set takes exactly the bytes at those of
them that do not lie behind the last byte.  Erasing in front of the insertion points takes exactly
the bytes in front of those of them that are not at the start, provided they are all different.
Neither is refused, all other bytes stay in order, and the version stays if nothing is taken. -/
theorem erasing_takes_points (h : rope.Sound) (hset : set.Valid rope.length)
    (hlength : rope.length < lastOffset) (side : Side) :
    (∃ e, rope.eraseAt set side = .ok e ∧
      e.buffer.toBytes =
        without (fun k => k < rope.length ∧ ∃ s ∈ set.selections, k = s.edge side) 0
          rope.toBytes ∧
      ((∀ s ∈ set.selections, rope.length ≤ s.edge side) → e.buffer = rope)) ∧
    ((set.selections.Pairwise fun s t =>
        s.place side rope.length ≠ t.place side rope.length) →
      ∃ e, rope.eraseBefore set side = .ok e ∧
        e.buffer.toBytes =
          without (fun k => ∃ s ∈ set.selections, k + 1 = s.place side rope.length) 0
            rope.toBytes ∧
        ((∀ s ∈ set.selections, s.place side rope.length = 0) → e.buffer = rope)) := by
  constructor
  · have htaken : ∀ k,
        LocalEdit.Taken (set.selections.map (side.erasure.edit rope.length)) k ↔
          k < rope.length ∧ ∃ s ∈ set.selections, k = s.edge side :=
      fun k => (Erasure.taken_edits_iff hset hlength).trans Side.erased_erasure_iff
    rcases h.exists_applyEdits_removals (Erasure.chained_edits side.erasure hset hlength)
      (Erasure.replacement_edit _ _) htaken with ⟨e, he, hbytes, hsame⟩
    rw [← Erasure.apply_eq, Side.apply_erasure] at he
    refine ⟨e, he, hbytes, fun hend => hsame ?_⟩
    rintro _ ⟨hk, s, hs, rfl⟩
    exact absurd hk (Nat.not_lt.2 (hend s hs))
  · intro hpoints
    rcases h.exists_applyEdits_removals (chained_backspacing hset hlength hpoints)
      (replacement_backspacing side _) (fun _ => taken_backspacing_iff hset.last_le hlength) with
        ⟨e, he, hbytes, hsame⟩
    refine ⟨e, (eraseBefore_eq ..).trans he, hbytes, fun hstart => hsame ?_⟩
    rintro k ⟨s, hs, hpoint⟩
    rw [hstart s hs] at hpoint
    exact absurd hpoint (Nat.succ_ne_zero k)

/-- Two selections border on each other, and the second one ends at the last byte.  Behind the first
one lies the first byte of the second; in front of the insertion points lie the last bytes of
both. -/
theorem erasing_takes_points_bordering :
    (∃ e, (ofBytes [0, 1, 2, 3]).eraseAt ⟨[⟨0, 1⟩, ⟨3, 2⟩], 0⟩ .after = .ok e ∧
      e.buffer.toBytes = [0, 1, 3]) ∧
    ∃ e, (ofBytes [0, 1, 2, 3]).eraseBefore ⟨[⟨0, 1⟩, ⟨3, 2⟩], 0⟩ .after = .ok e ∧
      e.buffer.toBytes = [0, 2] := by
  have hlength : (ofBytes [0, 1, 2, 3]).length = 4 := length_ofBytes _
  have hvalid : SelectionSet.Valid ⟨[⟨0, 1⟩, ⟨3, 2⟩], 0⟩ (ofBytes [0, 1, 2, 3]).length := by
    rw [hlength]
    exact ⟨by decide, by decide, by decide⟩
  have hpoints := erasing_takes_points (sound_ofBytes _) hvalid (by rw [hlength]; decide) .after
  rw [hlength, toBytes_ofBytes] at hpoints
  rcases hpoints with ⟨⟨at', hat, hatBytes, -⟩, hbefore⟩
  rcases hbefore (by decide) with ⟨before', hbefore', hbeforeBytes, -⟩
  exact ⟨⟨at', hat, hatBytes.trans (by decide)⟩, before', hbefore',
    hbeforeBytes.trans (by decide)⟩

end Rope

end HexEditor
