import HexEditor.Proofs.Rope.Balance

/-!
# The leaves of a tree

How well a tree uses its leaves shows in their sizes from left to right.  Rebalancing keeps this
row of sizes.  Joining puts two rows side by side, and merges the leaves that meet there if one of
the two trees is a lone leaf.  Between two branches nothing merges, however small the leaves are
that come to lie next to each other.

Main results:

- Definitions `Node.leafSizes` and `Rope.leafSizes`: the row of sizes.
- Definition `Leaves.Filled` and theorem `Node.Sound.filled`: no leaf of a sound tree is empty or
  overfull.
- Definition `Leaves.meet` and theorem `Node.leafSizes_join`: what joining does to the rows.
- Theorem `Rope.leafSizes_join?`: the same for trees that may be missing.
-/

namespace HexEditor

namespace Leaves

/-! ## Rows of sizes -/

/-- Every leaf of the row holds at least one byte and no more than fit. -/
def Filled (sizes : List Nat) : Prop :=
  ∀ size ∈ sizes, 0 < size ∧ size ≤ leafCapacity

theorem filled_nil : Filled [] := by
  intro size hsize
  cases hsize

theorem filled_append_iff {xs ys : List Nat} :
    Filled (xs ++ ys) ↔ Filled xs ∧ Filled ys :=
  List.forall_mem_append

theorem filled_cons_iff {x : Nat} {xs : List Nat} :
    Filled (x :: xs) ↔ (0 < x ∧ x ≤ leafCapacity) ∧ Filled xs :=
  List.forall_mem_cons

/-- A leaf inside a filled row. -/
theorem Filled.bounds {xs ys : List Nat} {x : Nat} (h : Filled (xs ++ x :: ys)) :
    0 < x ∧ x ≤ leafCapacity :=
  h x (List.mem_append_right xs List.mem_cons_self)

/-- A filled row without bytes has no leaf. -/
theorem Filled.eq_nil_of_sum_eq_zero {xs : List Nat} (h : Filled xs) (hsum : xs.sum = 0) :
    xs = [] := by
  cases xs with
  | nil => rfl
  | cons x xs =>
      have hpos := (filled_cons_iff.1 h).1.1
      rw [List.sum_cons] at hsum
      omega

/-- Put two rows side by side.  The two leaves that meet become one if they fit into one. -/
def meet (xs ys : List Nat) : List Nat :=
  match xs.getLast?, ys.head? with
  | some x, some y =>
    if leafCapacity < x + y then xs ++ ys else xs.dropLast ++ (x + y) :: ys.tail
  | _, _ => xs ++ ys

@[simp]
theorem meet_nil_left (ys : List Nat) : meet [] ys = ys :=
  rfl

@[simp]
theorem meet_nil_right (xs : List Nat) : meet xs [] = xs := by
  cases hlast : xs.getLast? <;> simp [meet, hlast]

/-- The leaves that meet do not fit into one. -/
theorem meet_of_lt (xs : List Nat) {ys : List Nat} {x y : Nat} (h : leafCapacity < x + y) :
    meet (xs ++ [x]) (y :: ys) = xs ++ x :: y :: ys := by
  simp [meet, h]

/-- The leaves that meet fit into one. -/
theorem meet_of_le (xs : List Nat) {ys : List Nat} {x y : Nat} (h : x + y ≤ leafCapacity) :
    meet (xs ++ [x]) (y :: ys) = xs ++ (x + y) :: ys := by
  simp [meet, Nat.not_lt.2 h]

/-- Two rows that meet are side by side, or the leaves at the seam have become one. -/
theorem meet_cases (xs ys : List Nat) :
    meet xs ys = xs ++ ys ∨
      ∃ xs' x y ys', xs = xs' ++ [x] ∧ ys = y :: ys' ∧ x + y ≤ leafCapacity ∧
        meet xs ys = xs' ++ (x + y) :: ys' := by
  rcases List.eq_nil_or_concat' xs with rfl | ⟨xs', x, rfl⟩
  · exact .inl rfl
  cases ys with
  | nil => exact .inl (by rw [meet_nil_right, List.append_nil])
  | cons y ys' =>
      by_cases hfits : x + y ≤ leafCapacity
      · exact .inr ⟨xs', x, y, ys', rfl, rfl, hfits, meet_of_le _ hfits⟩
      · rw [meet_of_lt _ (Nat.lt_of_not_le hfits), List.append_assoc]
        exact .inl rfl

/-- What is in front of the last leaf of the left row has no part in the meeting. -/
theorem append_meet {xs : List Nat} (ws ys : List Nat) (hxs : xs ≠ []) :
    ws ++ meet xs ys = meet (ws ++ xs) ys := by
  rcases List.eq_nil_or_concat' xs with rfl | ⟨xs', x, rfl⟩
  · exact absurd rfl hxs
  rw [← List.append_assoc]
  cases ys with
  | nil => rw [meet_nil_right, meet_nil_right, List.append_assoc]
  | cons y ys' =>
      by_cases hfits : x + y ≤ leafCapacity
      · rw [meet_of_le _ hfits, meet_of_le _ hfits, List.append_assoc]
      · have hlong := Nat.lt_of_not_le hfits
        rw [meet_of_lt _ hlong, meet_of_lt _ hlong, List.append_assoc]

/-- What is behind the first leaf of the right row has no part in the meeting. -/
theorem meet_append {ys : List Nat} (xs zs : List Nat) (hys : ys ≠ []) :
    meet xs ys ++ zs = meet xs (ys ++ zs) := by
  rcases List.eq_nil_or_concat' xs with rfl | ⟨xs', x, rfl⟩
  · rfl
  cases ys with
  | nil => exact absurd rfl hys
  | cons y ys' =>
      rw [List.cons_append]
      by_cases hfits : x + y ≤ leafCapacity
      · rw [meet_of_le _ hfits, meet_of_le _ hfits, List.append_assoc, List.cons_append]
      · have hlong := Nat.lt_of_not_le hfits
        rw [meet_of_lt _ hlong, meet_of_lt _ hlong, List.append_assoc, List.cons_append,
          List.cons_append]

end Leaves

namespace Node

open Leaves

/-! ## The leaves of a tree -/

/-- How many bytes the leaves hold, from left to right. -/
def leafSizes : Node → List Nat
  | leaf _ bytes => [bytes.length]
  | branch _ left right .. => left.leafSizes ++ right.leafSizes

@[simp]
theorem leafSizes_ofChunk (bytes : Bytes) : (ofChunk bytes).leafSizes = [bytes.length] :=
  rfl

@[simp]
theorem leafSizes_pair (l r : Node) : (pair l r).leafSizes = l.leafSizes ++ r.leafSizes :=
  rfl

/-- There is a size for every leaf. -/
theorem length_leafSizes (n : Node) : n.leafSizes.length = n.leafCount := by
  induction n with
  | leaf mark bytes => rfl
  | branch mark left right length height ihl ihr =>
      rw [leafSizes, List.length_append, ihl, ihr, leafCount]

/-- The leaves hold all bytes of the tree. -/
theorem sum_leafSizes (n : Node) : n.leafSizes.sum = n.toBytes.length := by
  induction n with
  | leaf mark bytes => simp [leafSizes, toBytes]
  | branch mark left right length height ihl ihr =>
      rw [leafSizes, List.sum_append, ihl, ihr, toBytes, List.length_append]

theorem leafCount_pos (n : Node) : 0 < n.leafCount := by
  induction n with
  | leaf mark bytes => exact Nat.one_pos
  | branch mark left right length height ihl ihr => exact Nat.add_pos_left ihl _

theorem leafSizes_ne_nil (n : Node) : n.leafSizes ≠ [] := by
  rw [← List.length_pos_iff, length_leafSizes]
  exact n.leafCount_pos

/-- A branch has several leaves. -/
theorem leafCount_branch_ne_one {mark : Option Mark} {l r : Node} {length height : Nat} :
    (branch mark l r length height).leafCount ≠ 1 := by
  have hl := l.leafCount_pos
  have hr := r.leafCount_pos
  rw [leafCount]
  omega

/-- The leaves of a sound tree are filled. -/
theorem Sound.filled {n : Node} (h : n.Sound) : Filled n.leafSizes := by
  induction h with
  | leaf hpos hfits => exact filled_cons_iff.2 ⟨⟨hpos, hfits⟩, filled_nil⟩
  | branch _ _ _ _ _ _ ihl ihr => exact filled_append_iff.2 ⟨ihl, ihr⟩

/-- The leaves of a sound tree hold as many bytes as it records. -/
theorem Sound.sum_leafSizes {n : Node} (h : n.Sound) : n.leafSizes.sum = n.length := by
  rw [Node.sum_leafSizes, h.length_eq]

/-! ## Rebalancing and joining -/

theorem leafSizes_rotateLeft (n : Node) : n.rotateLeft.leafSizes = n.leafSizes := by
  cases n with
  | leaf mark bytes => rfl
  | branch mark a r length height =>
      cases r with
      | leaf mark' bytes => rfl
      | branch mark' b c length' height' =>
          simp only [rotateLeft, leafSizes_pair, leafSizes, List.append_assoc]

theorem leafSizes_rotateRight (n : Node) : n.rotateRight.leafSizes = n.leafSizes := by
  cases n with
  | leaf mark bytes => rfl
  | branch mark l c length height =>
      cases l with
      | leaf mark' bytes => rfl
      | branch mark' a b length' height' =>
          simp only [rotateRight, leafSizes_pair, leafSizes, List.append_assoc]

/-- Rebalancing keeps all leaves. -/
@[simp]
theorem leafSizes_balance (l r : Node) :
    (balance l r).leafSizes = l.leafSizes ++ r.leafSizes := by
  unfold balance
  split_ifs <;> simp only [leafSizes_rotateRight, leafSizes_rotateLeft, leafSizes_pair]

/-- Joining two trees puts their leaves side by side.  Those that meet become one if they fit, but
only if one of the trees is a lone leaf.  A higher tree keeps a branch at its edge on the way down
to the height of the other one, so the way never ends at a lone leaf by itself. -/
theorem leafSizes_join {a b : Node} (ha : a.Sound) (hb : b.Sound) :
    (join a b).leafSizes =
      if a.leafCount = 1 ∨ b.leafCount = 1 then meet a.leafSizes b.leafSizes
      else a.leafSizes ++ b.leafSizes := by
  fun_induction join a b with
  | case1 m x m' y hlong =>
      rw [if_pos (.inl rfl)]
      exact (meet_of_lt [] hlong).symm
  | case2 m x m' y hfits =>
      rw [if_pos (.inl rfl), leafSizes_ofChunk, List.length_append]
      exact (meet_of_le [] (Nat.le_of_not_lt hfits)).symm
  | case3 m x m' bl br n h ih =>
      rw [if_pos (.inl rfl), leafSizes_balance, ih ha (sound_branch_iff.1 hb).1,
        if_pos (.inl rfl), meet_append _ _ bl.leafSizes_ne_nil, leafSizes, leafSizes]
  | case4 m al ar n h m' y ih =>
      rw [if_pos (.inr rfl), leafSizes_balance, ih (sound_branch_iff.1 ha).2.1 hb,
        if_pos (.inr rfl), append_meet _ _ ar.leafSizes_ne_nil, leafSizes, leafSizes]
  | case5 m al ar an ah m' bl br bn bh hhigher ih =>
      rcases sound_branch_iff.1 ha with ⟨hal, har, hlr, hrl, -, rfl⟩
      have hbl := (sound_branch_iff.1 hb).1.height_pos
      have hheight := (sound_branch_iff.1 hb).2.2.2.2.2
      rcases har.exists_branch (by omega) with ⟨m'', c, d, n, h, rfl⟩
      rw [leafSizes_balance, ih har hb,
        if_neg (not_or.2 ⟨leafCount_branch_ne_one, leafCount_branch_ne_one⟩),
        if_neg (not_or.2 ⟨leafCount_branch_ne_one, leafCount_branch_ne_one⟩),
        leafSizes.eq_2 m al, List.append_assoc]
  | case6 m al ar an ah m' bl br bn bh hlower hhigher ih =>
      rcases sound_branch_iff.1 hb with ⟨hbl, hbr, hlr, hrl, -, rfl⟩
      have hal := (sound_branch_iff.1 ha).1.height_pos
      have hheight := (sound_branch_iff.1 ha).2.2.2.2.2
      rcases hbl.exists_branch (by omega) with ⟨m'', c, d, n, h, rfl⟩
      rw [leafSizes_balance, ih ha hbl,
        if_neg (not_or.2 ⟨leafCount_branch_ne_one, leafCount_branch_ne_one⟩),
        if_neg (not_or.2 ⟨leafCount_branch_ne_one, leafCount_branch_ne_one⟩),
        leafSizes.eq_2 m' _ br, List.append_assoc]
  | case7 m al ar an ah m' bl br bn bh hlower hhigher =>
      rw [if_neg (not_or.2 ⟨leafCount_branch_ne_one, leafCount_branch_ne_one⟩),
        leafSizes_pair]

end Node

namespace Rope

open Leaves

/-! ## The leaves of a version -/

/-- How many bytes the leaves hold, from left to right. -/
def leafSizes (r : Rope) : List Nat :=
  match r.root with
  | none => []
  | some n => n.leafSizes

@[simp]
theorem leafSizes_root_none : (Rope.mk none).leafSizes = [] :=
  rfl

@[simp]
theorem leafSizes_root_some (n : Node) : (Rope.mk (some n)).leafSizes = n.leafSizes :=
  rfl

theorem length_leafSizes (r : Rope) : r.leafSizes.length = r.leafCount := by
  rcases r with ⟨_ | n⟩
  · rfl
  · exact n.length_leafSizes

theorem sum_leafSizes (r : Rope) : r.leafSizes.sum = r.toBytes.length := by
  rcases r with ⟨_ | n⟩
  · rfl
  · exact n.sum_leafSizes

theorem sound_root_some {n : Node} (h : n.Sound) : (Rope.mk (some n)).Sound := by
  intro m hm
  cases hm
  exact h

/-- The leaves of a sound version are filled. -/
theorem Sound.filled {r : Rope} (h : r.Sound) : Filled r.leafSizes := by
  rcases r with ⟨_ | n⟩
  · exact filled_nil
  · exact (h n rfl).filled

/-- What joining does to the leaves when each tree may be missing. -/
theorem leafSizes_join? {a b : Option Node} (ha : (Rope.mk a).Sound) (hb : (Rope.mk b).Sound) :
    (Rope.mk (Node.join? a b)).leafSizes =
      if (Rope.mk a).leafCount = 1 ∨ (Rope.mk b).leafCount = 1 then
        meet (Rope.mk a).leafSizes (Rope.mk b).leafSizes
      else (Rope.mk a).leafSizes ++ (Rope.mk b).leafSizes := by
  cases a with
  | none => split_ifs <;> rfl
  | some m =>
      cases b with
      | none => simp [Node.join?]
      | some n => exact Node.leafSizes_join (ha m rfl) (hb n rfl)

end Rope

end HexEditor
