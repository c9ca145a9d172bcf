import HexEditor.Proofs.Rope.Content
import Mathlib.Data.Nat.Fib.Basic
import Mathlib.Data.Nat.Log

/-!
# The balance of trees

A sound tree has filled leaves, records its true length and height at every
branch, and is balanced: the two sides of a branch differ in height by one level
at most.  Every operation on trees keeps them sound.

The bound that carries the argument is on the height of a join.  Joining two
trees gives a tree as high as the higher one, or one level higher, so a side that
is replaced by its join with something lower has grown by one level at most, and
rebalancing never meets a difference of more than two.

Main results:

- Definition `Node.Sound` and theorem `Node.sound_branch_iff`: the invariant, and
  its form in the recorded lengths and heights.
- Theorem `Node.Sound.balance`: a difference of two levels is repaired.
- Theorem `Node.Sound.join`: joins are sound, with the bound on their heights.
- Theorems `Node.Sound.split` and `Node.sound_build`: cutting a sound tree and
  building a tree of bytes.
- Theorem `Node.Sound.fib_le_leafCount`: a sound tree has many leaves for its
  height.
-/

namespace HexEditor

namespace Node

/-! ## The invariant -/

/-- How many levels the tree has, counted rather than read off its root. -/
def depth : Node → Nat
  | leaf .. => 1
  | branch _ left right .. => 1 + max left.depth right.depth

/-- The tree is balanced, its leaves are neither empty nor overfull, and every
branch records the length and the height of what lies below it. -/
inductive Sound : Node → Prop where
  /-- A leaf holds at least one byte and no more than fit. -/
  | leaf {mark : Option Mark} {bytes : Bytes} (nonempty : 0 < bytes.length)
      (fits : bytes.length ≤ leafCapacity) : Sound (.leaf mark bytes)
  /-- The sides of a branch are sound and differ by one level at most. -/
  | branch {mark : Option Mark} {left right : Node} {length height : Nat}
      (left_sound : Sound left) (right_sound : Sound right)
      (left_low : left.depth ≤ right.depth + 1) (right_low : right.depth ≤ left.depth + 1)
      (length_eq : length = left.toBytes.length + right.toBytes.length)
      (height_eq : height = 1 + max left.depth right.depth) :
      Sound (.branch mark left right length height)

/-- A sound tree records its true length. -/
theorem Sound.length_eq {n : Node} (h : n.Sound) : n.length = n.toBytes.length := by
  cases h with
  | leaf => rfl
  | branch _ _ _ _ hlength _ => simp only [length, toBytes, List.length_append, hlength]

/-- A sound tree records its true height. -/
theorem Sound.height_eq {n : Node} (h : n.Sound) : n.height = n.depth := by
  cases h with
  | leaf => rfl
  | branch _ _ _ _ _ hheight => simp only [height, depth, hheight]

/-- A sound tree holds at least one byte. -/
theorem Sound.length_pos {n : Node} (h : n.Sound) : 0 < n.length := by
  induction h with
  | leaf hpos _ => exact hpos
  | branch hl hr _ _ hlength _ ihl ihr =>
      rw [hl.length_eq] at ihl
      simp only [length, hlength]
      omega

/-- A sound tree has at least one level. -/
theorem Sound.height_pos {n : Node} (h : n.Sound) : 0 < n.height := by
  cases h with
  | leaf => exact Nat.one_pos
  | branch _ _ _ _ _ hheight => simp only [height, hheight]; omega

/-- The invariant of a branch in terms of what its sides record. -/
theorem sound_branch_iff {mark : Option Mark} {l r : Node} {length height : Nat} :
    (branch mark l r length height).Sound ↔
      l.Sound ∧ r.Sound ∧ l.height ≤ r.height + 1 ∧ r.height ≤ l.height + 1 ∧
        length = l.length + r.length ∧ height = 1 + max l.height r.height := by
  constructor
  · intro h
    cases h with
    | branch hl hr hlr hrl hlength hheight =>
        rw [hl.length_eq, hr.length_eq, hl.height_eq, hr.height_eq]
        exact ⟨hl, hr, hlr, hrl, hlength, hheight⟩
  · rintro ⟨hl, hr, hlr, hrl, hlength, hheight⟩
    rw [hl.height_eq, hr.height_eq] at hlr hrl hheight
    rw [hl.length_eq, hr.length_eq] at hlength
    exact .branch hl hr hlr hrl hlength hheight

/-- Two sound trees of close heights make a sound pair. -/
theorem Sound.pair {l r : Node} (hl : l.Sound) (hr : r.Sound)
    (hlr : l.height ≤ r.height + 1) (hrl : r.height ≤ l.height + 1) : (pair l r).Sound :=
  sound_branch_iff.2 ⟨hl, hr, hlr, hrl, rfl, rfl⟩

/-- A sound tree of more than one level is a branch. -/
theorem Sound.exists_branch {n : Node} (h : n.Sound) (hheight : 1 < n.height) :
    ∃ mark l r length height, n = .branch mark l r length height := by
  cases h with
  | leaf => simp only [height, Nat.lt_irrefl] at hheight
  | branch => exact ⟨_, _, _, _, _, rfl⟩

/-! ## Rebalancing -/

/-- Trees of close heights need no rotation. -/
theorem balance_eq_pair {l r : Node} (hlr : l.height ≤ r.height + 1)
    (hrl : r.height ≤ l.height + 1) : balance l r = pair l r := by
  unfold balance
  rw [if_neg (by omega), if_neg (by omega)]

/-- A left side that is two levels too high is repaired by lifting it, after its
own right side has been lifted if that is the higher one. -/
theorem Sound.balance_left_high {l r : Node} (hl : l.Sound) (hr : r.Sound)
    (hheight : l.height = r.height + 2) :
    (Node.balance l r).Sound ∧ l.height ≤ (Node.balance l r).height ∧
      (Node.balance l r).height ≤ l.height + 1 := by
  have hrpos := hr.height_pos
  rcases hl.exists_branch (by omega) with ⟨mark, a, b, n, h, rfl⟩
  rcases sound_branch_iff.1 hl with ⟨ha, hb, hab, hba, -, hh⟩
  simp only [height_branch] at hheight ⊢
  unfold Node.balance
  rw [if_pos (by simp only [height_branch]; omega)]
  by_cases hlean : a.height < b.height
  · have hapos := ha.height_pos
    rcases hb.exists_branch (by omega) with ⟨mark', c, d, n', h', rfl⟩
    rcases sound_branch_iff.1 hb with ⟨hc, hd, hcd, hdc, -, hh'⟩
    simp only [height_branch] at hlean hab hba hh
    have hrotated : rotateRight (Node.pair (rotateLeft
        (.branch mark a (.branch mark' c d n' h') n h)) r) =
          Node.pair (Node.pair a c) (Node.pair d r) := rfl
    rw [if_pos ((leansRight_branch ..).2 hlean), hrotated]
    refine ⟨Sound.pair (ha.pair hc (by omega) (by omega))
      (hd.pair hr (by omega) (by omega)) ?_ ?_, ?_, ?_⟩
    all_goals simp only [height_pair]; omega
  · have hrotated : rotateRight (Node.pair (.branch mark a b n h) r) =
        Node.pair a (Node.pair b r) := rfl
    rw [if_neg (mt (leansRight_branch ..).1 hlean), hrotated]
    refine ⟨Sound.pair ha (hb.pair hr (by omega) (by omega)) ?_ ?_, ?_, ?_⟩
    all_goals simp only [height_pair]; omega

/-- A right side that is two levels too high is repaired in the same way. -/
theorem Sound.balance_right_high {l r : Node} (hl : l.Sound) (hr : r.Sound)
    (hheight : r.height = l.height + 2) :
    (Node.balance l r).Sound ∧ r.height ≤ (Node.balance l r).height ∧
      (Node.balance l r).height ≤ r.height + 1 := by
  have hlpos := hl.height_pos
  rcases hr.exists_branch (by omega) with ⟨mark, a, b, n, h, rfl⟩
  rcases sound_branch_iff.1 hr with ⟨ha, hb, hab, hba, -, hh⟩
  simp only [height_branch] at hheight ⊢
  unfold Node.balance
  rw [if_neg (by simp only [height_branch]; omega),
    if_pos (by simp only [height_branch]; omega)]
  by_cases hlean : b.height < a.height
  · have hbpos := hb.height_pos
    rcases ha.exists_branch (by omega) with ⟨mark', c, d, n', h', rfl⟩
    rcases sound_branch_iff.1 ha with ⟨hc, hd, hcd, hdc, -, hh'⟩
    simp only [height_branch] at hlean hab hba hh
    have hrotated : rotateLeft (Node.pair l (rotateRight
        (.branch mark (.branch mark' c d n' h') b n h))) =
          Node.pair (Node.pair l c) (Node.pair d b) := rfl
    rw [if_pos ((leansLeft_branch ..).2 hlean), hrotated]
    refine ⟨Sound.pair (hl.pair hc (by omega) (by omega))
      (hd.pair hb (by omega) (by omega)) ?_ ?_, ?_, ?_⟩
    all_goals simp only [height_pair]; omega
  · have hrotated : rotateLeft (Node.pair l (.branch mark a b n h)) =
        Node.pair (Node.pair l a) b := rfl
    rw [if_neg (mt (leansLeft_branch ..).1 hlean), hrotated]
    refine ⟨Sound.pair (hl.pair ha (by omega) (by omega)) hb ?_ ?_, ?_, ?_⟩
    all_goals simp only [height_pair]; omega

/-- Rebalancing two sound trees that differ by two levels at most gives a sound
tree, which is as high as the higher of the two or one level higher. -/
theorem Sound.balance {l r : Node} (hl : l.Sound) (hr : r.Sound)
    (hlr : l.height ≤ r.height + 2) (hrl : r.height ≤ l.height + 2) :
    (Node.balance l r).Sound ∧ max l.height r.height ≤ (Node.balance l r).height ∧
      (Node.balance l r).height ≤ 1 + max l.height r.height := by
  by_cases hleft : l.height = r.height + 2
  · rcases hl.balance_left_high hr hleft with ⟨hsound, hlow, hhigh⟩
    exact ⟨hsound, by omega, by omega⟩
  by_cases hright : r.height = l.height + 2
  · rcases hl.balance_right_high hr hright with ⟨hsound, hlow, hhigh⟩
    exact ⟨hsound, by omega, by omega⟩
  · rw [balance_eq_pair (by omega) (by omega)]
    exact ⟨hl.pair hr (by omega) (by omega), by simp only [height_pair]; omega,
      by simp only [height_pair]; omega⟩

/-- Replacing the left side of a sound branch by a tree that is one level higher
at most raises the branch by one level at most. -/
theorem Sound.balance_grown_left {l l' r : Node} (hl' : l'.Sound) (hr : r.Sound)
    (hlr : l.height ≤ r.height + 1) (hrl : r.height ≤ l.height + 1)
    (hlow : l.height ≤ l'.height) (hhigh : l'.height ≤ l.height + 1) :
    (Node.balance l' r).Sound ∧ 1 + max l.height r.height ≤ (Node.balance l' r).height ∧
      (Node.balance l' r).height ≤ 1 + max l.height r.height + 1 := by
  rcases hl'.balance hr (by omega) (by omega) with ⟨hsound, hmax, hsucc⟩
  refine ⟨hsound, ?_, by omega⟩
  by_cases hfar : l'.height = r.height + 2
  · omega
  · rw [balance_eq_pair (by omega) (by omega), height_pair]
    omega

/-- Replacing the right side of a sound branch by a tree that is one level higher
at most raises the branch by one level at most. -/
theorem Sound.balance_grown_right {l r r' : Node} (hl : l.Sound) (hr' : r'.Sound)
    (hlr : l.height ≤ r.height + 1) (hrl : r.height ≤ l.height + 1)
    (hlow : r.height ≤ r'.height) (hhigh : r'.height ≤ r.height + 1) :
    (Node.balance l r').Sound ∧ 1 + max l.height r.height ≤ (Node.balance l r').height ∧
      (Node.balance l r').height ≤ 1 + max l.height r.height + 1 := by
  rcases hl.balance hr' (by omega) (by omega) with ⟨hsound, hmax, hsucc⟩
  refine ⟨hsound, ?_, by omega⟩
  by_cases hfar : r'.height = l.height + 2
  · omega
  · rw [balance_eq_pair (by omega) (by omega), height_pair]
    omega

/-! ## Joining -/

/-- Joining sound trees gives a sound tree, which is as high as the higher of the
two or one level higher. -/
theorem Sound.join {a b : Node} (ha : a.Sound) (hb : b.Sound) :
    (Node.join a b).Sound ∧ max a.height b.height ≤ (Node.join a b).height ∧
      (Node.join a b).height ≤ 1 + max a.height b.height := by
  fun_induction Node.join a b with
  | case1 m x m' y =>
      exact ⟨ha.pair hb (by simp only [height_leaf]; omega) (by simp only [height_leaf]; omega),
        by simp only [height_pair]; omega, by simp only [height_pair]; omega⟩
  | case2 m x m' y hfits =>
      refine ⟨.leaf ?_ (by rw [List.length_append]; omega), ?_, ?_⟩
      · have hpos := ha.length_pos
        rw [length_leaf] at hpos
        rw [List.length_append]
        omega
      · simp only [ofChunk, height_leaf]; omega
      · simp only [ofChunk, height_leaf]; omega
  | case3 m x m' bl br n h ih =>
      -- The leaf is no higher than the side it sinks into.
      rcases sound_branch_iff.1 hb with ⟨hbl, hbr, hlr, hrl, -, rfl⟩
      rcases ih ha hbl with ⟨hsound, hlow, hhigh⟩
      have hpos := hbl.height_pos
      simp only [height_leaf] at hlow hhigh
      rcases hsound.balance_grown_left hbr hlr hrl (by omega) (by omega) with
        ⟨hbalanced, hmin, hmax⟩
      exact ⟨hbalanced, by simp only [height_leaf, height_branch]; omega,
        by simp only [height_leaf, height_branch]; omega⟩
  | case4 m al ar n h m' y ih =>
      rcases sound_branch_iff.1 ha with ⟨hal, har, hlr, hrl, -, rfl⟩
      rcases ih har hb with ⟨hsound, hlow, hhigh⟩
      have hpos := har.height_pos
      simp only [height_leaf] at hlow hhigh
      rcases hal.balance_grown_right hsound hlr hrl (by omega) (by omega) with
        ⟨hbalanced, hmin, hmax⟩
      exact ⟨hbalanced, by simp only [height_leaf, height_branch]; omega,
        by simp only [height_leaf, height_branch]; omega⟩
  | case5 m al ar an ah m' bl br bn bh hhigher ih =>
      rcases sound_branch_iff.1 ha with ⟨hal, har, hlr, hrl, -, rfl⟩
      rcases ih har hb with ⟨hsound, hlow, hhigh⟩
      simp only [height_branch] at hlow hhigh
      rcases hal.balance_grown_right hsound hlr hrl (by omega) (by omega) with
        ⟨hbalanced, hmin, hmax⟩
      exact ⟨hbalanced, by simp only [height_branch]; omega,
        by simp only [height_branch]; omega⟩
  | case6 m al ar an ah m' bl br bn bh _ hhigher ih =>
      rcases sound_branch_iff.1 hb with ⟨hbl, hbr, hlr, hrl, -, rfl⟩
      rcases ih ha hbl with ⟨hsound, hlow, hhigh⟩
      simp only [height_branch] at hlow hhigh
      rcases hsound.balance_grown_left hbr hlr hrl (by omega) (by omega) with
        ⟨hbalanced, hmin, hmax⟩
      exact ⟨hbalanced, by simp only [height_branch]; omega,
        by simp only [height_branch]; omega⟩
  | case7 m al ar an ah m' bl br bn bh hleft hright =>
      refine ⟨ha.pair hb ?_ ?_, ?_, ?_⟩
      all_goals simp only [height_pair, height_branch]; omega

/-- Joining sound trees that may be missing gives a sound tree or none. -/
theorem sound_join? {a b : Option Node} (ha : ∀ n ∈ a, n.Sound) (hb : ∀ n ∈ b, n.Sound) :
    ∀ n ∈ join? a b, n.Sound := by
  cases a with
  | none => exact hb
  | some m =>
      cases b with
      | none => exact ha
      | some n =>
          intro joined hjoined
          cases hjoined
          exact ((ha m rfl).join (hb n rfl)).1

/-! ## Splitting -/

/-- A leaf of no more than the allowed bytes is sound, if it is made at all. -/
theorem sound_chunk? {bytes : Bytes} (hfits : bytes.length ≤ leafCapacity) :
    ∀ n ∈ chunk? bytes, n.Sound := by
  intro n hn
  unfold chunk? at hn
  split_ifs at hn with hempty
  · cases hn
  · cases hn
    refine .leaf ?_ hfits
    rw [List.isEmpty_iff] at hempty
    exact List.length_pos_iff.2 hempty

/-- The tree of a chunk holds the chunk. -/
theorem toBytes_chunk? (bytes : Bytes) : (Rope.mk (chunk? bytes)).toBytes = bytes := by
  unfold chunk?
  split_ifs with hempty
  · rw [List.isEmpty_iff.1 hempty, Rope.toBytes_root_none]
  · rfl

/-- Cutting a sound tree gives sound trees of the bytes in front of the cut and of
those behind it. -/
theorem Sound.split {n : Node} (h : n.Sound) (k : Nat) :
    ((∀ m ∈ (n.split k).1, m.Sound) ∧ ∀ m ∈ (n.split k).2, m.Sound) ∧
      (Rope.mk (n.split k).1).toBytes = n.toBytes.take k ∧
      (Rope.mk (n.split k).2).toBytes = n.toBytes.drop k := by
  have hlength := h.length_eq
  fun_induction Node.split n k with
  | case1 n =>
      refine ⟨⟨by simp, by simpa using h⟩, ?_, ?_⟩ <;> simp
  | case2 n k _ hlong =>
      refine ⟨⟨by simpa using h, by simp⟩, ?_, ?_⟩
      · rw [Rope.toBytes_root_some, List.take_of_length_le (by omega)]
      · rw [Rope.toBytes_root_none, List.drop_of_length_le (by omega)]
  | case3 k _ mark bytes _ =>
      cases h with
      | leaf _ hfits =>
          refine ⟨⟨sound_chunk? ?_, sound_chunk? ?_⟩, toBytes_chunk? _, toBytes_chunk? _⟩
          · rw [List.length_take]; omega
          · rw [List.length_drop]; omega
  | case4 k _ mark l r n h' hk a b heq _ ih =>
      rcases sound_branch_iff.1 h with ⟨hl, hr, -, -, -, -⟩
      rcases ih hl hl.length_eq with ⟨⟨hfirst, hsecond⟩, htake, hdrop⟩
      rw [heq] at hfirst hsecond htake hdrop
      have hshort : k ≤ l.toBytes.length := by rw [← hl.length_eq]; omega
      refine ⟨⟨hfirst, sound_join? hsecond (by simpa using hr)⟩, ?_, ?_⟩
      · rw [htake, toBytes, List.take_append_of_le_length hshort]
      · rw [Rope.toBytes_join?, hdrop, toBytes, List.drop_append_of_le_length hshort,
          Rope.toBytes_root_some]
  | case5 mark l r n h' _ _ _ =>
      rcases sound_branch_iff.1 h with ⟨hl, hr, -, -, -, -⟩
      refine ⟨⟨by simpa using hl, by simpa using hr⟩, ?_, ?_⟩
      · rw [Rope.toBytes_root_some, toBytes, List.take_left' hl.length_eq.symm]
      · rw [Rope.toBytes_root_some, toBytes, List.drop_left' hl.length_eq.symm]
  | case6 k _ mark l r n h' hk hne a b heq _ ih =>
      rcases sound_branch_iff.1 h with ⟨hl, hr, -, -, -, -⟩
      rcases ih hr hr.length_eq with ⟨⟨hfirst, hsecond⟩, htake, hdrop⟩
      rw [heq] at hfirst hsecond htake hdrop
      have hlong : l.toBytes.length ≤ k := by rw [← hl.length_eq]; omega
      have hbehind : k - l.toBytes.length = k - l.length := by rw [hl.length_eq]
      refine ⟨⟨sound_join? (by simpa using hl) hfirst, hsecond⟩, ?_, ?_⟩
      · rw [Rope.toBytes_join?, htake, toBytes, List.take_append,
          List.take_of_length_le hlong, hbehind, Rope.toBytes_root_some]
      · rw [hdrop, toBytes, List.drop_append, List.drop_of_length_le hlong, hbehind,
          List.nil_append]

/-- Cutting a sound tree that may be missing gives sound trees of the bytes on the
two sides of the cut. -/
theorem sound_split? {a : Option Node} (ha : ∀ n ∈ a, n.Sound) (k : Nat) :
    ((∀ n ∈ (split? a k).1, n.Sound) ∧ ∀ n ∈ (split? a k).2, n.Sound) ∧
      (Rope.mk (split? a k).1).toBytes = (Rope.mk a).toBytes.take k ∧
      (Rope.mk (split? a k).2).toBytes = (Rope.mk a).toBytes.drop k := by
  cases a with
  | none => exact ⟨⟨ha, ha⟩, List.take_nil.symm, List.drop_nil.symm⟩
  | some n => exact (ha n rfl).split k

/-! ## Building -/

/-- How many leaves are needed for that many bytes. -/
def leavesFor (n : Nat) : Nat :=
  (n + leafCapacity - 1) / leafCapacity

/-- The left half of a layout takes half of the leaves, rounded down. -/
theorem leavesFor_leftShare (n : Nat) : leavesFor (leftShare n) = leavesFor n / 2 := by
  unfold leavesFor leftShare leafCapacity
  omega

/-- The right half of a layout takes half of the leaves, rounded up. -/
theorem leavesFor_sub_leftShare (n : Nat) :
    leavesFor (n - leftShare n) = (leavesFor n + 1) / 2 := by
  unfold leavesFor leftShare leafCapacity
  omega

/-- More bytes than one leaf holds need two leaves at least. -/
theorem two_le_leavesFor {n : Nat} (h : leafCapacity < n) : 2 ≤ leavesFor n := by
  unfold leavesFor leafCapacity at *
  omega

/-- One more leaf needs one more level at most. -/
theorem clog_succ_le {k : Nat} (h : 0 < k) : Nat.clog 2 (k + 1) ≤ Nat.clog 2 k + 1 := by
  have hdouble : Nat.clog 2 (2 * k) = Nat.clog 2 k + 1 := by
    rw [Nat.clog_of_two_le (by omega) (by omega)]
    congr 2
    omega
  rw [← hdouble]
  exact Nat.clog_mono_right 2 (by omega)

/-- Halving a number of leaves, once rounded down and once rounded up, saves one
level, and the two halves differ by one level at most. -/
theorem clog_halves {k : Nat} (h : 2 ≤ k) :
    Nat.clog 2 (k / 2) ≤ Nat.clog 2 ((k + 1) / 2) ∧
      Nat.clog 2 ((k + 1) / 2) ≤ Nat.clog 2 (k / 2) + 1 ∧
      Nat.clog 2 k = Nat.clog 2 ((k + 1) / 2) + 1 := by
  refine ⟨Nat.clog_mono_right 2 (by omega), ?_, Nat.clog_of_two_le (by omega) h⟩
  exact (Nat.clog_mono_right 2 (by omega)).trans (clog_succ_le (by omega))

/-- A tree built from bytes is sound, and it has as few levels as its leaves
allow. -/
theorem sound_build {bytes : Bytes} (hpos : 0 < bytes.length) :
    (build bytes).Sound ∧
      (build bytes).height = 1 + Nat.clog 2 (leavesFor bytes.length) := by
  fun_induction build bytes with
  | case1 bytes hfits =>
      refine ⟨.leaf hpos hfits, ?_⟩
      have hone : leavesFor bytes.length ≤ 1 := by
        unfold leavesFor leafCapacity at *
        omega
      rw [Nat.clog_of_right_le_one hone, ofChunk, height_leaf]
  | case2 bytes hlong ihLeft ihRight =>
      have hbounds := leftShare_bounds (Nat.lt_of_not_le hlong)
      rw [List.length_take, Nat.min_eq_left hbounds.2.le, leavesFor_leftShare] at ihLeft
      rw [List.length_drop, leavesFor_sub_leftShare] at ihRight
      rcases ihLeft hbounds.1 with ⟨hl, hlheight⟩
      rcases ihRight (by omega) with ⟨hr, hrheight⟩
      rcases clog_halves (two_le_leavesFor (Nat.lt_of_not_le hlong)) with
        ⟨hlow, hhigh, htotal⟩
      rw [balance_eq_pair (by omega) (by omega), height_pair]
      exact ⟨hl.pair hr (by omega) (by omega), by omega⟩

/-- The two sides of a layout are sound and differ by one level at most, so that
no rotation is needed to put them together. -/
theorem build_sides {bytes : Bytes} (hlong : leafCapacity < bytes.length) :
    (build (bytes.take (leftShare bytes.length))).Sound ∧
      (build (bytes.drop (leftShare bytes.length))).Sound ∧
      (build (bytes.take (leftShare bytes.length))).height ≤
        (build (bytes.drop (leftShare bytes.length))).height + 1 ∧
      (build (bytes.drop (leftShare bytes.length))).height ≤
        (build (bytes.take (leftShare bytes.length))).height + 1 := by
  have hbounds := leftShare_bounds hlong
  have htake : (bytes.take (leftShare bytes.length)).length = leftShare bytes.length := by
    rw [List.length_take, Nat.min_eq_left hbounds.2.le]
  have hdrop : (bytes.drop (leftShare bytes.length)).length =
      bytes.length - leftShare bytes.length := List.length_drop
  have hleft : 0 < (bytes.take (leftShare bytes.length)).length := by omega
  have hright : 0 < (bytes.drop (leftShare bytes.length)).length := by omega
  rcases sound_build hleft with ⟨hl, hlheight⟩
  rcases sound_build hright with ⟨hr, hrheight⟩
  rw [htake, leavesFor_leftShare] at hlheight
  rw [hdrop, leavesFor_sub_leftShare] at hrheight
  rcases clog_halves (two_le_leavesFor hlong) with ⟨hlow, hhigh, -⟩
  exact ⟨hl, hr, by omega, by omega⟩

/-- A tree of a replacement is sound, if it is made at all. -/
theorem sound_build? (bytes : Bytes) : ∀ n ∈ build? bytes, n.Sound := by
  intro n hn
  unfold build? at hn
  split_ifs at hn with hempty
  · cases hn
  · cases hn
    rw [List.isEmpty_iff] at hempty
    exact (sound_build (List.length_pos_iff.2 hempty)).1

/-! ## Marking -/

/-- Marking keeps a tree sound. -/
theorem Sound.stamp {n : Node} (h : n.Sound) (version next : Nat) :
    (Node.stamp version n next).1.Sound := by
  fun_induction Node.stamp version n next with
  | case1 next bytes =>
      cases h with
      | leaf hpos hfits => exact .leaf hpos hfits
  | case2 next left right length height l' next' hl r' next'' hr ihl ihr =>
      rcases sound_branch_iff.1 h with ⟨hsl, hsr, hlow⟩
      have hleft := stamp_views version left (next + 1)
      have hright := stamp_views version right next'
      have hsl' := ihl hsl
      have hsr' := ihr hsr
      rw [hl] at hleft hsl'
      rw [hr] at hright hsr'
      refine sound_branch_iff.2 ⟨hsl', hsr', ?_⟩
      rw [hleft.2.1, hleft.2.2.1, hright.2.1, hright.2.2.1]
      exact hlow
  | case3 => exact h

/-! ## Height and leaves -/

/-- A sound tree has at least as many leaves as the sparsest tree of its height. -/
theorem Sound.fib_le_leafCount {n : Node} (h : n.Sound) :
    Nat.fib (n.height + 1) ≤ n.leafCount := by
  induction h with
  | leaf => exact Nat.le_refl 1
  | @branch mark l r length height hl hr hlr hrl _ hheight ihl ihr =>
      rw [← hl.height_eq, ← hr.height_eq] at hlr hrl hheight
      rw [height_branch, leafCount, hheight]
      have hlpos := hl.height_pos
      have hrpos := hr.height_pos
      -- The higher side fills the larger Fibonacci number, and the other one,
      -- which is one level lower at most, the smaller.
      rcases le_total l.height r.height with hle | hle
      · rw [max_eq_right hle, Nat.add_comm 1, Nat.fib_add_two]
        exact Nat.add_le_add ((Nat.fib_mono (by omega)).trans ihl) ihr
      · rw [max_eq_left hle, Nat.add_comm 1, Nat.fib_add_two, Nat.add_comm]
        exact Nat.add_le_add ihl ((Nat.fib_mono (by omega)).trans ihr)

/-- Fibonacci numbers double every two steps at least. -/
theorem two_pow_half_le_fib (n : Nat) : 2 ^ (n / 2) ≤ Nat.fib (n + 1) := by
  induction n using Nat.twoStepInduction with
  | zero => decide
  | one => decide
  | more n ih _ =>
      have hgrow : 2 * Nat.fib (n + 1) ≤ Nat.fib (n + 3) := by
        rw [Nat.fib_add_two (n := n + 1), two_mul]
        exact Nat.add_le_add_left (Nat.fib_mono (by omega)) _
      have hhalf : (n + 2) / 2 = n / 2 + 1 := by omega
      calc 2 ^ ((n + 2) / 2) = 2 * 2 ^ (n / 2) := by rw [hhalf, pow_succ, Nat.mul_comm]
        _ ≤ 2 * Nat.fib (n + 1) := Nat.mul_le_mul_left 2 ih
        _ ≤ Nat.fib (n + 3) := hgrow

/-- The height of a sound tree is logarithmic in the number of its leaves. -/
theorem Sound.height_le_log {n : Node} (h : n.Sound) :
    n.height ≤ 2 * Nat.log 2 n.leafCount + 1 := by
  have hpow : 2 ^ (n.height / 2) ≤ n.leafCount :=
    (two_pow_half_le_fib n.height).trans h.fib_le_leafCount
  have hhalf : n.height / 2 ≤ Nat.log 2 n.leafCount := Nat.le_log_of_pow_le Nat.one_lt_two hpow
  omega

end Node

namespace Rope

/-! ## Versions -/

/-- The tree of the version is sound, if it has one. -/
def Sound (r : Rope) : Prop :=
  ∀ n ∈ r.root, n.Sound

/-- A sound version records the number of its bytes. -/
theorem Sound.length_eq {r : Rope} (h : r.Sound) : r.length = r.toBytes.length := by
  rcases r with ⟨root⟩
  cases root with
  | none => rfl
  | some n => exact (h n rfl).length_eq

/-- A version without a tree is one without bytes. -/
theorem Sound.root_eq_none_iff {r : Rope} (h : r.Sound) : r.root = none ↔ r.toBytes = [] := by
  rcases r with ⟨root⟩
  cases root with
  | none => exact ⟨fun _ => rfl, fun _ => rfl⟩
  | some n =>
      have hpos := (h n rfl).length_pos
      rw [(h n rfl).length_eq] at hpos
      constructor
      · intro hroot
        cases hroot
      · intro hbytes
        rw [toBytes_root_some] at hbytes
        rw [hbytes] at hpos
        exact absurd hpos (Nat.lt_irrefl 0)

/-- The version without bytes is sound. -/
theorem sound_empty : empty.Sound := by
  intro n hn
  cases hn

/-- Loading bytes gives a sound version. -/
theorem sound_ofBytes (bytes : Bytes) : (ofBytes bytes).Sound := by
  unfold ofBytes
  rw [Node.buildParallel_eq_build]
  exact Node.sound_build? bytes

@[simp]
theorem length_ofBytes (bytes : Bytes) : (ofBytes bytes).length = bytes.length := by
  rw [(sound_ofBytes bytes).length_eq, toBytes_ofBytes]

/-- Marking a version keeps it sound. -/
theorem Sound.complete {r : Rope} (h : r.Sound) (version : Nat) :
    (r.complete version).Sound := by
  intro n hn
  rcases Option.map_eq_some_iff.1 hn with ⟨m, hm, rfl⟩
  exact (h m hm).stamp version 0

/-- Replacing nothing by nothing gives the version itself. -/
theorem splice_idle {r : Rope} {range : Range} {replacement : Bytes} (hrange : r.Holds range)
    (hidle : (range.isEmpty && replacement.isEmpty) = true) :
    r.splice range replacement = .ok r := by
  unfold splice
  rw [if_pos hrange, if_pos hidle]

/-- Any other edit cuts the version at both ends of the range and joins the outer
parts with a tree of the replacement. -/
theorem splice_eq_join {r : Rope} {range : Range} {replacement : Bytes}
    (hrange : r.Holds range) (hidle : ¬ (range.isEmpty && replacement.isEmpty) = true) :
    r.splice range replacement =
      .ok ⟨Node.join? (Node.join? (Node.split? r.root range.start).1 (Node.build? replacement))
        (Node.split? (Node.split? r.root range.start).2 (range.stop - range.start)).2⟩ := by
  unfold splice
  rw [if_pos hrange, if_neg hidle]

/-- Replacing a range that lies in a sound version gives a sound version of the
bytes in front of the range, the replacement, and the bytes behind the range. -/
theorem Sound.splice {r : Rope} (h : r.Sound) {range : Range} (hrange : r.Holds range)
    (replacement : Bytes) :
    ∃ s, r.splice range replacement = .ok s ∧ s.Sound ∧
      s.toBytes = r.toBytes.take range.start ++ replacement ++ r.toBytes.drop range.stop := by
  by_cases hidle : (range.isEmpty && replacement.isEmpty) = true
  · refine ⟨r, splice_idle hrange hidle, h, ?_⟩
    rw [Bool.and_eq_true, Range.isEmpty, decide_eq_true_iff, List.isEmpty_iff] at hidle
    rcases hidle with ⟨hempty, rfl⟩
    have hpoint : range.stop = range.start := Nat.le_antisymm hempty hrange.1
    rw [hpoint, List.append_nil, List.take_append_drop]
  · rcases Node.sound_split? h range.start with ⟨⟨hbefore, hrest⟩, htake, hdrop⟩
    rcases Node.sound_split? hrest (range.stop - range.start) with ⟨⟨-, hafter⟩, -, hbehind⟩
    have hmiddle := Node.sound_build? replacement
    refine ⟨_, splice_eq_join hrange hidle,
      Node.sound_join? (Node.sound_join? hbefore hmiddle) hafter, ?_⟩
    rw [toBytes_join?, toBytes_join?, toBytes_build?, htake, hbehind, hdrop, List.drop_drop,
      Nat.add_sub_cancel' hrange.1]

end Rope

end HexEditor
