import HexEditor.Rope.Basic
import Mathlib.Tactic.Common

/-!
# The bytes of a tree

A tree of chunks stands for the bytes of its leaves from left to right.  Putting
trees side by side, rotating them and marking them never moves a byte, whatever
the shape of the trees, so each of these operations has one equation on bytes.

Main results:

- Theorem `Node.toBytes_balance`: rebalancing two trees keeps their bytes in
  order.
- Theorem `Node.toBytes_join`: joining two trees concatenates their bytes.
- Theorem `Node.toBytes_build`: a tree that is built from bytes holds them.
- Theorem `Rope.toBytes_complete`: marking a version leaves its bytes alone.
-/

namespace HexEditor

namespace Node

/-! ## Pairs and rotations -/

@[simp]
theorem length_branch (mark : Option Mark) (l r : Node) (length height : Nat) :
    (branch mark l r length height).length = length :=
  rfl

@[simp]
theorem height_branch (mark : Option Mark) (l r : Node) (length height : Nat) :
    (branch mark l r length height).height = height :=
  rfl

@[simp]
theorem length_leaf (mark : Option Mark) (bytes : Bytes) :
    (leaf mark bytes).length = List.length bytes :=
  rfl

@[simp]
theorem height_leaf (mark : Option Mark) (bytes : Bytes) : (leaf mark bytes).height = 1 :=
  rfl

@[simp]
theorem length_pair (a b : Node) : (pair a b).length = a.length + b.length :=
  rfl

@[simp]
theorem height_pair (a b : Node) : (pair a b).height = 1 + max a.height b.height :=
  rfl

@[simp]
theorem leansRight_branch (mark : Option Mark) (l r : Node) (length height : Nat) :
    (branch mark l r length height).leansRight = true ↔ l.height < r.height :=
  decide_eq_true_iff

@[simp]
theorem leansLeft_branch (mark : Option Mark) (l r : Node) (length height : Nat) :
    (branch mark l r length height).leansLeft = true ↔ r.height < l.height :=
  decide_eq_true_iff

@[simp]
theorem toBytes_pair (a b : Node) : (pair a b).toBytes = a.toBytes ++ b.toBytes :=
  rfl

@[simp]
theorem toBytes_ofChunk (bytes : Bytes) : (ofChunk bytes).toBytes = bytes :=
  rfl

/-- Lifting the right child keeps the bytes. -/
@[simp]
theorem toBytes_rotateLeft (n : Node) : n.rotateLeft.toBytes = n.toBytes := by
  cases n with
  | leaf mark bytes => rfl
  | branch mark a r length height =>
      cases r with
      | leaf mark' bytes => rfl
      | branch mark' b c length' height' =>
          simp only [rotateLeft, toBytes_pair, toBytes, List.append_assoc]

/-- Lifting the left child keeps the bytes. -/
@[simp]
theorem toBytes_rotateRight (n : Node) : n.rotateRight.toBytes = n.toBytes := by
  cases n with
  | leaf mark bytes => rfl
  | branch mark l c length height =>
      cases l with
      | leaf mark' bytes => rfl
      | branch mark' a b length' height' =>
          simp only [rotateRight, toBytes_pair, toBytes, List.append_assoc]

/-! ## Balancing and joining -/

/-- Putting two trees side by side puts their bytes side by side, also when a
rotation evens out their heights. -/
@[simp]
theorem toBytes_balance (l r : Node) : (balance l r).toBytes = l.toBytes ++ r.toBytes := by
  unfold balance
  split_ifs <;> simp only [toBytes_rotateRight, toBytes_rotateLeft, toBytes_pair]

/-- Joining trees joins their bytes: no byte is lost on the way down the edge of
the higher tree, nor when two leaves merge. -/
@[simp]
theorem toBytes_join (a b : Node) : (join a b).toBytes = a.toBytes ++ b.toBytes := by
  fun_induction join a b with
  | case1 m x m' y => rfl
  | case2 m x m' y => rfl
  | case3 m x m' bl br length height ih =>
      rw [toBytes_balance, ih]
      simp only [toBytes, List.append_assoc]
  | case4 m al ar length height m' y ih =>
      rw [toBytes_balance, ih]
      simp only [toBytes, List.append_assoc]
  | case5 m al ar an ah m' bl br bn bh _ ih =>
      rw [toBytes_balance, ih]
      simp only [toBytes, List.append_assoc]
  | case6 m al ar an ah m' bl br bn bh _ _ ih =>
      rw [toBytes_balance, ih]
      simp only [toBytes, List.append_assoc]
  | case7 => rfl

/-! ## Building -/

/-- A tree built from bytes holds these bytes. -/
@[simp]
theorem toBytes_build (bytes : Bytes) : (build bytes).toBytes = bytes := by
  fun_induction build bytes with
  | case1 => rfl
  | case2 bytes _ ihLeft ihRight =>
      rw [toBytes_balance, ihLeft, ihRight, List.take_append_drop]

/-- The task that builds the left half of a large load builds what the sequential
construction would have built there. -/
theorem buildParallel_eq_build (bytes : Bytes) : buildParallel bytes = build bytes := by
  unfold buildParallel
  split_ifs with hsmall
  · rfl
  · have hlarge : ¬ bytes.length ≤ leafCapacity := by
      unfold parallelThreshold at hsmall
      unfold leafCapacity
      omega
    rw [build, dif_neg hlarge]
    rfl

/-! ## Marking -/

/-- Marking changes nothing but marks. -/
theorem stamp_views (version : Nat) (n : Node) (next : Nat) :
    (stamp version n next).1.toBytes = n.toBytes ∧
      (stamp version n next).1.length = n.length ∧
      (stamp version n next).1.height = n.height ∧
      (stamp version n next).1.leafCount = n.leafCount := by
  fun_induction stamp version n next with
  | case1 => exact ⟨rfl, rfl, rfl, rfl⟩
  | case2 next left right length height l' next' hl r' next'' hr ihl ihr =>
      simp only [hl] at ihl
      simp only [hr] at ihr
      refine ⟨?_, rfl, rfl, ?_⟩
      · simp only [toBytes, ihl.1, ihr.1]
      · simp only [leafCount, ihl.2.2.2, ihr.2.2.2]
  | case3 => exact ⟨rfl, rfl, rfl, rfl⟩

end Node

namespace Rope

/-! ## Versions -/

@[simp]
theorem toBytes_root_none : (Rope.mk none).toBytes = [] :=
  rfl

@[simp]
theorem toBytes_root_some (n : Node) : (Rope.mk (some n)).toBytes = n.toBytes :=
  rfl

/-- A version loaded from bytes holds these bytes. -/
@[simp]
theorem toBytes_ofBytes (bytes : Bytes) : (ofBytes bytes).toBytes = bytes := by
  unfold ofBytes
  split_ifs with hempty
  · rw [List.isEmpty_iff.1 hempty, toBytes_root_none]
  · rw [toBytes_root_some, Node.buildParallel_eq_build, Node.toBytes_build]

/-- Joining trees that may be missing joins the bytes of the versions they make. -/
@[simp]
theorem toBytes_join? (a b : Option Node) :
    (Rope.mk (Node.join? a b)).toBytes = (Rope.mk a).toBytes ++ (Rope.mk b).toBytes := by
  cases a with
  | none => rfl
  | some m =>
      cases b with
      | none => exact (List.append_nil _).symm
      | some n => exact Node.toBytes_join m n

/-- The tree of a replacement holds the replacement. -/
@[simp]
theorem toBytes_build? (bytes : Bytes) : (Rope.mk (Node.build? bytes)).toBytes = bytes := by
  unfold Node.build?
  split_ifs with hempty
  · rw [List.isEmpty_iff.1 hempty, toBytes_root_none]
  · exact Node.toBytes_build bytes

/-- Marking a version leaves its bytes alone. -/
@[simp]
theorem toBytes_complete (version : Nat) (r : Rope) :
    (r.complete version).toBytes = r.toBytes := by
  rcases r with ⟨root⟩
  cases root with
  | none => rfl
  | some n => exact (Node.stamp_views version n 0).1

/-- Marking a version leaves its length alone. -/
@[simp]
theorem length_complete (version : Nat) (r : Rope) :
    (r.complete version).length = r.length := by
  rcases r with ⟨root⟩
  cases root with
  | none => rfl
  | some n => exact (Node.stamp_views version n 0).2.1

end Rope

end HexEditor
