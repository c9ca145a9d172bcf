import HexEditor.Proofs.Rope.Leaves
import HexEditor.Proofs.Rope.Rotation
import Mathlib.Tactic.NormNum.NatLog

/-!
# How loaded bytes are laid out

Bytes are loaded by halving: half of the leaves go to the left, and the cut lies on the boundary of
a leaf, so all leaves but the last are full.  The halves of a layout differ by one leaf at most and
therefore by one level at most, and no rotation is needed on the way up.  A large load gives its
left half to a task of its own and is laid out in the same way.

Main results:

- Definition `Leaves.layout` and theorem `Node.leafSizes_build`: the leaves of a tree that is built
  from bytes.
- Definitions `Node.pairChecked`, `Node.buildBy` and `Node.buildParallelBy`: the two ways of
  building, with the step that puts two sides together left open.
- Theorem `Rope.ofBytes_layout`: the leaves and the height of a loaded version, and that it is put
  together without a rotation.
-/

namespace HexEditor

namespace Leaves

open Node (leavesFor leftShare)

/-! ## Full leaves -/

/-- The leaves for that many bytes, all of them full but the last. -/
def layout (n : Nat) : List Nat :=
  List.replicate (leavesFor n - 1) leafCapacity ++ [n - (leavesFor n - 1) * leafCapacity]

theorem length_layout {n : Nat} (hpos : 0 < n) : (layout n).length = leavesFor n := by
  have hleaves : 0 < leavesFor n := by
    unfold leavesFor leafCapacity
    omega
  rw [layout, List.length_append, List.length_replicate, List.length_singleton]
  omega

theorem eq_leafCapacity_of_mem_dropLast_layout {n size : Nat}
    (h : size ∈ (layout n).dropLast) : size = leafCapacity := by
  rw [layout, List.dropLast_concat] at h
  exact List.eq_of_mem_replicate h

/-- The bytes of the left half fill their leaves. -/
theorem layout_leftShare {n : Nat} (h : leafCapacity < n) :
    layout (leftShare n) = List.replicate (leavesFor n / 2) leafCapacity := by
  have htwo := Node.two_le_leavesFor h
  have hlast : leftShare n - (leavesFor n / 2 - 1) * leafCapacity = leafCapacity := by
    unfold leftShare leavesFor leafCapacity at *
    omega
  rw [layout, Node.leavesFor_leftShare, hlast, ← List.replicate_succ']
  congr 1
  omega

/-- The layouts of the two halves are that of the whole. -/
theorem layout_halves {n : Nat} (h : leafCapacity < n) :
    layout (leftShare n) ++ layout (n - leftShare n) = layout n := by
  have htwo := Node.two_le_leavesFor h
  have hcount : leavesFor n / 2 + ((leavesFor n + 1) / 2 - 1) = leavesFor n - 1 := by omega
  have hlast : n - leftShare n - ((leavesFor n + 1) / 2 - 1) * leafCapacity =
      n - (leavesFor n - 1) * leafCapacity := by
    unfold leftShare leavesFor leafCapacity at *
    omega
  rw [layout_leftShare h, layout, Node.leavesFor_sub_leftShare, hlast, ← List.append_assoc,
    List.replicate_append_replicate, hcount, layout]

end Leaves

namespace Node

open Leaves

/-- A tree that is built from bytes has as many leaves as they need, and all are full but the
last. -/
theorem leafSizes_build {bytes : Bytes} (hpos : 0 < bytes.length) :
    (build bytes).leafSizes = layout bytes.length := by
  fun_induction build bytes with
  | case1 bytes hfits =>
      have hone : leavesFor bytes.length - 1 = 0 := by
        unfold leavesFor leafCapacity at *
        omega
      rw [leafSizes_ofChunk, layout, hone, List.replicate_zero, Nat.zero_mul, Nat.sub_zero,
        List.nil_append]
  | case2 bytes hlong ihLeft ihRight =>
      have hlong' := Nat.lt_of_not_le hlong
      have hbounds := leftShare_bounds hlong'
      rw [List.length_take, Nat.min_eq_left hbounds.2.le] at ihLeft
      rw [List.length_drop] at ihRight
      rw [leafSizes_balance, ihLeft hbounds.1, ihRight (Nat.sub_pos_of_lt hbounds.2),
        layout_halves hlong']

/-! ## Building without rotations -/

/-- Put two trees side by side as they are.  There is no answer if one of them is two levels higher
than the other. -/
def pairChecked (left right : Node) : Option Node :=
  if left.height ≤ right.height + 1 ∧ right.height ≤ left.height + 1 then some (pair left right)
  else none

/-- Build a tree of bytes, with another way to put the two sides of a branch together.  With
`balance` for it, this is `build`. -/
def buildBy (put : Node → Node → Option Node) (bytes : Bytes) : Option Node :=
  if _ : bytes.length ≤ leafCapacity then some (ofChunk bytes)
  else
    (buildBy put (bytes.take (leftShare bytes.length))).bind fun left =>
      (buildBy put (bytes.drop (leftShare bytes.length))).bind fun right =>
        put left right
termination_by bytes.length
decreasing_by
  all_goals
    have := leftShare_bounds (Nat.lt_of_not_le ‹_›)
    simp only [List.length_take, List.length_drop]
    omega

/-- Build a tree in two halves at a time if there are many bytes, with another way to put the two
sides of a branch together.  With `balance` for it, this is `buildParallel`. -/
def buildParallelBy (put : Node → Node → Option Node) (bytes : Bytes) : Option Node :=
  if bytes.length ≤ parallelThreshold then buildBy put bytes
  else
    let share := leftShare bytes.length
    let left := Task.spawn fun _ => buildBy put (bytes.take share)
    let right := buildBy put (bytes.drop share)
    left.get.bind fun left => right.bind fun right => put left right

variable {put : Node → Node → Option Node}

/-- Building never puts trees together that differ by more than one level, so it does not matter
what would happen to such trees. -/
theorem buildBy_eq
    (hput : ∀ l r : Node, l.height ≤ r.height + 1 → r.height ≤ l.height + 1 →
      put l r = some (balance l r)) (bytes : Bytes) :
    buildBy put bytes = some (build bytes) := by
  fun_induction build bytes with
  | case1 bytes hfits => rw [buildBy, dif_pos hfits]
  | case2 bytes hlong ihLeft ihRight =>
      rcases build_sides (Nat.lt_of_not_le hlong) with ⟨-, -, hlr, hrl⟩
      rw [buildBy, dif_neg hlong, ihLeft, Option.bind_some, ihRight, Option.bind_some,
        hput _ _ hlr hrl]

/-- Building in two halves does not either. -/
theorem buildParallelBy_eq
    (hput : ∀ l r : Node, l.height ≤ r.height + 1 → r.height ≤ l.height + 1 →
      put l r = some (balance l r)) (bytes : Bytes) :
    buildParallelBy put bytes = some (buildParallel bytes) := by
  unfold buildParallelBy buildParallel
  split_ifs with hsmall
  · exact buildBy_eq hput bytes
  · have hlong : leafCapacity < bytes.length := by
      unfold parallelThreshold leafCapacity at *
      omega
    rcases build_sides hlong with ⟨-, -, hlr, hrl⟩
    simp only [Task.spawn, buildBy_eq hput, Option.bind_some]
    exact hput _ _ hlr hrl

theorem pairChecked_eq {l r : Node} (hlr : l.height ≤ r.height + 1)
    (hrl : r.height ≤ l.height + 1) : pairChecked l r = some (balance l r) := by
  rw [pairChecked, if_pos ⟨hlr, hrl⟩, balance_eq_pair hlr hrl]

end Node

namespace Rope

/-! ## Loaded versions -/

/-- The tree of a version that is loaded from some bytes. -/
theorem root_ofBytes {bytes : Bytes} (h : bytes ≠ []) :
    (ofBytes bytes).root = some (Node.build bytes) := by
  rw [ofBytes, Node.buildParallel_eq_build, if_neg (mt List.isEmpty_iff.1 h)]

/-- The leaves of a version that is loaded from some bytes are laid out for them. -/
theorem leafSizes_ofBytes {bytes : Bytes} (h : bytes ≠ []) :
    (ofBytes bytes).leafSizes = Leaves.layout bytes.length := by
  rw [leafSizes, root_ofBytes h]
  exact Node.leafSizes_build (List.length_pos_iff.2 h)

theorem leafCount_ofBytes {bytes : Bytes} (h : bytes ≠ []) :
    (ofBytes bytes).leafCount = Node.leavesFor bytes.length := by
  rw [← length_leafSizes, leafSizes_ofBytes h, Leaves.length_layout (List.length_pos_iff.2 h)]

/-- A version loaded from bytes denotes them, and its tree is sound.  It has the leaves that the
bytes need, all full but the last, and as few levels as these leaves allow.  Both ways of building
it put trees side by side that differ by one level at most, and never rotate. -/
theorem ofBytes_layout {bytes : Bytes} (h : bytes ≠ []) :
    (ofBytes bytes).toBytes = bytes ∧ (ofBytes bytes).Sound ∧
      (ofBytes bytes).leafCount = (bytes.length + 1023) / 1024 ∧
      (∀ size ∈ (ofBytes bytes).leafSizes.dropLast, size = 1024) ∧
      (ofBytes bytes).height = 1 + Nat.clog 2 ((bytes.length + 1023) / 1024) ∧
      Node.buildBy Node.pairChecked bytes = some (Node.build bytes) ∧
      Node.buildParallelBy Node.pairChecked bytes = some (Node.buildParallel bytes) := by
  refine ⟨toBytes_ofBytes bytes, sound_ofBytes bytes, leafCount_ofBytes h, ?_, ?_,
    Node.buildBy_eq (fun _ _ => Node.pairChecked_eq) bytes,
    Node.buildParallelBy_eq (fun _ _ => Node.pairChecked_eq) bytes⟩
  · intro size hsize
    rw [leafSizes_ofBytes h] at hsize
    exact Leaves.eq_leafCapacity_of_mem_dropLast_layout hsize
  · rw [height, root_ofBytes h]
    exact (Node.sound_build (List.length_pos_iff.2 h)).2

/-- Five million bytes are built in two halves at a time and fill 4883 leaves. -/
theorem ofBytes_layout_large :
    Node.parallelThreshold < (List.replicate 5000000 (0 : UInt8)).length ∧
      (ofBytes (List.replicate 5000000 0)).leafCount = 4883 ∧
      (ofBytes (List.replicate 5000000 0)).height = 14 := by
  have hlength : (List.replicate 5000000 (0 : UInt8)).length = 5000000 := List.length_replicate
  have hbytes : List.replicate 5000000 (0 : UInt8) ≠ [] := by
    rw [← List.length_pos_iff, hlength]
    decide
  rcases ofBytes_layout hbytes with ⟨-, -, hcount, -, hheight, -⟩
  rw [hlength] at hcount hheight ⊢
  have hlevels : Nat.clog 2 4883 = 13 := by norm_num
  exact ⟨by decide, hcount, hheight.trans (congrArg (1 + ·) hlevels)⟩

end Rope

end HexEditor
