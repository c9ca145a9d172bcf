import HexEditor.Proofs.Rope.Balance

/-!
# Rotations find the branches that they lift

A rotation takes a branch apart and then one of its children.  On a tree of
another shape it has nothing to lift.  The checked operations of this module do
what the operations on trees do, but they have no answer as soon as a rotation
lacks one of the branches it needs.  On sound trees they always answer.

Main results:

- Definitions `Node.balanceChecked`, `Node.joinChecked`, `Node.splitChecked` and
  `Node.buildChecked`: the operations with checked rotations.
- Definitions `Rope.ofBytesChecked` and `Rope.spliceChecked`: loading and editing
  with checked rotations.
- Theorems `Rope.ofBytesChecked_eq` and `Rope.spliceChecked_eq`: loading bytes and
  editing a version of sound trees never lack a branch.
-/

namespace HexEditor

namespace Node

/-! ## Checked operations -/

/-- Lift the right child, if it is a branch. -/
def rotateLeftChecked : Node → Option Node
  | branch _ a (branch _ b c ..) .. => some (pair (pair a b) c)
  | _ => none

/-- Lift the left child, if it is a branch. -/
def rotateRightChecked : Node → Option Node
  | branch _ (branch _ a b ..) c .. => some (pair a (pair b c))
  | _ => none

/-- Put two trees side by side and rotate with checks. -/
def balanceChecked (left right : Node) : Option Node :=
  if right.height + 1 < left.height then
    (if left.leansRight then rotateLeftChecked left else some left).bind fun left =>
      rotateRightChecked (pair left right)
  else if left.height + 1 < right.height then
    (if right.leansLeft then rotateRightChecked right else some right).bind fun right =>
      rotateLeftChecked (pair left right)
  else some (pair left right)

/-- Join two trees with checked rotations on the path back. -/
def joinChecked (a b : Node) : Option Node :=
  match a, b with
  | leaf m x, leaf m' y =>
    if leafCapacity < x.length + y.length then some (pair (leaf m x) (leaf m' y))
    else some (ofChunk (x ++ y))
  | leaf m x, branch _ bl br .. =>
    (joinChecked (leaf m x) bl).bind fun joined => balanceChecked joined br
  | branch _ al ar .., leaf m y =>
    (joinChecked ar (leaf m y)).bind fun joined => balanceChecked al joined
  | branch m al ar an ah, branch m' bl br bn bh =>
    if bh + 1 < ah then
      (joinChecked ar (branch m' bl br bn bh)).bind fun joined => balanceChecked al joined
    else if ah + 1 < bh then
      (joinChecked (branch m al ar an ah) bl).bind fun joined => balanceChecked joined br
    else some (pair (branch m al ar an ah) (branch m' bl br bn bh))
termination_by a.nodeCount + b.nodeCount
decreasing_by all_goals simp only [nodeCount]; omega

/-- Join two trees that may be missing, with checked rotations.  The outer layer
says whether the rotations found their branches. -/
def join?Checked : Option Node → Option Node → Option (Option Node)
  | none, b => some b
  | a, none => some a
  | some a, some b => (joinChecked a b).map some

/-- Cut a tree and join its parts with checked rotations. -/
def splitChecked (n : Node) (k : Nat) : Option (Option Node × Option Node) :=
  if k = 0 then some (none, some n)
  else if n.length ≤ k then some (some n, none)
  else
    match n with
    | leaf _ bytes => some (chunk? (bytes.take k), chunk? (bytes.drop k))
    | branch _ left right .. =>
      if k < left.length then
        (splitChecked left k).bind fun parts =>
          (join?Checked parts.2 (some right)).map fun joined => (parts.1, joined)
      else if k = left.length then some (some left, some right)
      else
        (splitChecked right (k - left.length)).bind fun parts =>
          (join?Checked (some left) parts.1).map fun joined => (joined, parts.2)

/-- Cut a tree that may be missing, with checked rotations. -/
def split?Checked : Option Node → Nat → Option (Option Node × Option Node)
  | none, _ => some (none, none)
  | some n, k => n.splitChecked k

/-- Build a tree of bytes with checked rotations. -/
def buildChecked (bytes : Bytes) : Option Node :=
  if _ : bytes.length ≤ leafCapacity then some (ofChunk bytes)
  else
    (buildChecked (bytes.take (leftShare bytes.length))).bind fun left =>
      (buildChecked (bytes.drop (leftShare bytes.length))).bind fun right =>
        balanceChecked left right
termination_by bytes.length
decreasing_by
  all_goals
    have := leftShare_bounds (Nat.lt_of_not_le ‹_›)
    simp only [List.length_take, List.length_drop]
    omega

/-- Build a tree of bytes, unless there are none, with checked rotations. -/
def build?Checked (bytes : Bytes) : Option (Option Node) :=
  if bytes.isEmpty then some none else (buildChecked bytes).map some

/-! ## Sound trees have the branches -/

/-- Between sound trees that differ by two levels at most, every rotation finds
its branches. -/
theorem Sound.balanceChecked {l r : Node} (hl : l.Sound) (hr : r.Sound)
    (hlr : l.height ≤ r.height + 2) (hrl : r.height ≤ l.height + 2) :
    Node.balanceChecked l r = some (Node.balance l r) := by
  have hlpos := hl.height_pos
  have hrpos := hr.height_pos
  unfold Node.balanceChecked Node.balance
  split_ifs with hleft hleanRight hright hleanLeft
  · -- The left side is high and leans right, so its right child is a branch.
    rcases hl.exists_branch (by omega) with ⟨mark, a, b, n, h, rfl⟩
    rcases sound_branch_iff.1 hl with ⟨ha, hb, -⟩
    have hapos := ha.height_pos
    have hlean := (leansRight_branch ..).1 hleanRight
    rcases hb.exists_branch (by omega) with ⟨mark', c, d, n', h', rfl⟩
    rfl
  · rcases hl.exists_branch (by omega) with ⟨mark, a, b, n, h, rfl⟩
    rfl
  · rcases hr.exists_branch (by omega) with ⟨mark, a, b, n, h, rfl⟩
    rcases sound_branch_iff.1 hr with ⟨ha, hb, -⟩
    have hbpos := hb.height_pos
    have hlean := (leansLeft_branch ..).1 hleanLeft
    rcases ha.exists_branch (by omega) with ⟨mark', c, d, n', h', rfl⟩
    rfl
  · rcases hr.exists_branch (by omega) with ⟨mark, a, b, n, h, rfl⟩
    rfl
  · rfl

/-- Joining sound trees never lacks a branch. -/
theorem Sound.joinChecked {a b : Node} (ha : a.Sound) (hb : b.Sound) :
    Node.joinChecked a b = some (Node.join a b) := by
  fun_induction Node.join a b with
  | case1 m x m' y hlong => rw [Node.joinChecked, if_pos hlong]
  | case2 m x m' y hfits => rw [Node.joinChecked, if_neg hfits]
  | case3 m x m' bl br n h ih =>
      rcases sound_branch_iff.1 hb with ⟨hbl, hbr, hlr, hrl, -, -⟩
      rcases ha.join hbl with ⟨hsound, hlow, hhigh⟩
      have hpos := hbl.height_pos
      simp only [height_leaf] at hlow hhigh
      rw [Node.joinChecked, ih ha hbl, Option.bind_some,
        hsound.balanceChecked hbr (by omega) (by omega)]
  | case4 m al ar n h m' y ih =>
      rcases sound_branch_iff.1 ha with ⟨hal, har, hlr, hrl, -, -⟩
      rcases har.join hb with ⟨hsound, hlow, hhigh⟩
      have hpos := har.height_pos
      simp only [height_leaf] at hlow hhigh
      rw [Node.joinChecked, ih har hb, Option.bind_some,
        hal.balanceChecked hsound (by omega) (by omega)]
  | case5 m al ar an ah m' bl br bn bh hhigher ih =>
      rcases sound_branch_iff.1 ha with ⟨hal, har, hlr, hrl, -, rfl⟩
      rcases har.join hb with ⟨hsound, hlow, hhigh⟩
      simp only [height_branch] at hlow hhigh
      rw [Node.joinChecked, if_pos hhigher, ih har hb, Option.bind_some,
        hal.balanceChecked hsound (by omega) (by omega)]
  | case6 m al ar an ah m' bl br bn bh hlower hhigher ih =>
      rcases sound_branch_iff.1 hb with ⟨hbl, hbr, hlr, hrl, -, rfl⟩
      rcases ha.join hbl with ⟨hsound, hlow, hhigh⟩
      simp only [height_branch] at hlow hhigh
      rw [Node.joinChecked, if_neg hlower, if_pos hhigher, ih ha hbl, Option.bind_some,
        hsound.balanceChecked hbr (by omega) (by omega)]
  | case7 m al ar an ah m' bl br bn bh hlower hhigher =>
      rw [Node.joinChecked, if_neg hlower, if_neg hhigher]

/-- Joining sound trees that may be missing never lacks a branch. -/
theorem join?Checked_eq {a b : Option Node} (ha : ∀ n ∈ a, n.Sound)
    (hb : ∀ n ∈ b, n.Sound) : join?Checked a b = some (join? a b) := by
  cases a with
  | none => rfl
  | some m =>
      cases b with
      | none => rfl
      | some n => rw [join?Checked, (ha m rfl).joinChecked (hb n rfl)]; rfl

/-- Cutting a sound tree never lacks a branch. -/
theorem Sound.splitChecked {n : Node} (h : n.Sound) (k : Nat) :
    Node.splitChecked n k = some (Node.split n k) := by
  fun_induction Node.split n k with
  | case1 n => rw [Node.splitChecked.eq_def, if_pos rfl]
  | case2 n k hk hlong => rw [Node.splitChecked.eq_def, if_neg hk, if_pos hlong]
  | case3 k hk mark bytes hshort => rw [Node.splitChecked, if_neg hk, if_neg hshort]
  | case4 k hk mark l r n h' hleft a b heq hshort ih =>
      rcases sound_branch_iff.1 h with ⟨hl, hr, -⟩
      have hsecond := (hl.split k).1.2
      rw [heq] at hsecond
      rw [Node.splitChecked, if_neg hk, if_neg hshort, if_pos hleft, ih hl, heq,
        Option.bind_some, join?Checked_eq hsecond (by simpa using hr), Option.map_some]
  | case5 mark l r n h' hk hleft hshort =>
      rw [Node.splitChecked, if_neg hk, if_neg hshort, if_neg hleft, if_pos rfl]
  | case6 k hk mark l r n h' hleft hne a b heq hshort ih =>
      rcases sound_branch_iff.1 h with ⟨hl, hr, -⟩
      have hfirst := (hr.split (k - l.length)).1.1
      rw [heq] at hfirst
      rw [Node.splitChecked, if_neg hk, if_neg hshort, if_neg hleft, if_neg hne, ih hr, heq,
        Option.bind_some, join?Checked_eq (by simpa using hl) hfirst, Option.map_some]

/-- Cutting a sound tree that may be missing never lacks a branch. -/
theorem split?Checked_eq {a : Option Node} (ha : ∀ n ∈ a, n.Sound) (k : Nat) :
    split?Checked a k = some (split? a k) := by
  cases a with
  | none => rfl
  | some n => exact (ha n rfl).splitChecked k

/-- Building a tree never lacks a branch. -/
theorem buildChecked_eq (bytes : Bytes) : buildChecked bytes = some (build bytes) := by
  fun_induction build bytes with
  | case1 bytes hfits => rw [buildChecked, dif_pos hfits]
  | case2 bytes hlong ihLeft ihRight =>
      rcases build_sides (Nat.lt_of_not_le hlong) with ⟨hl, hr, hlr, hrl⟩
      rw [buildChecked, dif_neg hlong, ihLeft, Option.bind_some, ihRight, Option.bind_some,
        hl.balanceChecked hr (by omega) (by omega)]

/-- Building a tree of bytes that may be missing never lacks a branch. -/
theorem build?Checked_eq (bytes : Bytes) : build?Checked bytes = some (build? bytes) := by
  unfold build?Checked build?
  split_ifs
  · rfl
  · rw [buildChecked_eq, Option.map_some]

end Node

namespace Rope

/-! ## Loading and editing -/

/-- Load bytes with checked rotations. -/
def ofBytesChecked (bytes : Bytes) : Option Rope :=
  (Node.build?Checked bytes).map Rope.mk

/-- Replace a range by other bytes with checked rotations.  The outer layer says
whether the rotations found their branches. -/
def spliceChecked (r : Rope) (range : Range) (replacement : Bytes) :
    Option (Except RangeError Rope) :=
  if r.Holds range then
    if range.isEmpty && replacement.isEmpty then some (.ok r)
    else
      (Node.split?Checked r.root range.start).bind fun cut =>
        (Node.split?Checked cut.2 (range.stop - range.start)).bind fun cut' =>
          (Node.build?Checked replacement).bind fun middle =>
            (Node.join?Checked cut.1 middle).bind fun front =>
              (Node.join?Checked front cut'.2).map fun root => .ok ⟨root⟩
  else some (.error (.splice range r.length))

/-- Loading bytes never lacks a branch. -/
theorem ofBytesChecked_eq (bytes : Bytes) : ofBytesChecked bytes = some (ofBytes bytes) := by
  rw [ofBytesChecked, Node.build?Checked_eq, Option.map_some, ofBytes,
    Node.buildParallel_eq_build, Node.build?]

/-- Editing a sound version never lacks a branch. -/
theorem spliceChecked_eq {r : Rope} (h : r.Sound) (range : Range) (replacement : Bytes) :
    r.spliceChecked range replacement = some (r.splice range replacement) := by
  unfold spliceChecked splice
  split_ifs with hholds hidle
  · rfl
  · rcases Node.sound_split? h range.start with ⟨⟨hbefore, hrest⟩, -⟩
    rcases Node.sound_split? hrest (range.stop - range.start) with ⟨⟨-, hafter⟩, -⟩
    have hmiddle := Node.sound_build? replacement
    rw [Node.split?Checked_eq h, Option.bind_some, Node.split?Checked_eq hrest,
      Option.bind_some, Node.build?Checked_eq, Option.bind_some,
      Node.join?Checked_eq hbefore hmiddle, Option.bind_some,
      Node.join?Checked_eq (Node.sound_join? hbefore hmiddle) hafter, Option.map_some]
  · rfl

end Rope

end HexEditor
