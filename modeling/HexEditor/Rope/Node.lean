import HexEditor.Text

/-!
# Balanced trees of byte chunks

A version of a file is a binary tree whose leaves hold the bytes in order.  The
trees are height balanced, and an edit builds new nodes only along the paths to
its seams; every other node is shared with the version it came from.

Main definitions:

- `Node` is a leaf of at most `leafCapacity` bytes or a branch that records the
  length and the height of what lies below it.
- `Node.balance` puts two trees side by side and repairs a difference of two in
  their heights, by one or two rotations.
- `Node.join` puts any two trees side by side and merges leaves that fit
  together; `Node.split` cuts a tree at an offset.
- `Node.build` makes a tree whose leaves are all full but the last.
- `Node.toBytes` is the sequence that a tree stands for.
-/

namespace HexEditor

/-- The most bytes that one leaf holds. -/
def leafCapacity : Nat := 1024

/-- The identity of a node: the version that brought it in, and its number among
the nodes of that version. -/
structure Mark where
  /-- The version whose creation made the node. -/
  version : Nat
  /-- The number of the node among those that the version added. -/
  index : Nat
deriving DecidableEq

/-- A tree of byte chunks.  A node without a mark belongs to a version that is
still being put together. -/
inductive Node where
  /-- A chunk of consecutive bytes. -/
  | leaf (mark : Option Mark) (bytes : Bytes)
  /-- Two trees side by side, with the number of bytes below and the number of
  levels. -/
  | branch (mark : Option Mark) (left right : Node) (length height : Nat)
deriving Inhabited

namespace Node

/-! ## Measures and views -/

/-- The identity of the node, if its version is complete. -/
def mark : Node → Option Mark
  | leaf mark _ => mark
  | branch mark .. => mark

/-- How many bytes the tree holds. -/
def length : Node → Nat
  | leaf _ bytes => bytes.length
  | branch _ _ _ length _ => length

/-- How many levels the tree has; a leaf has one. -/
def height : Node → Nat
  | leaf .. => 1
  | branch _ _ _ _ height => height

/-- How many leaves the tree has. -/
def leafCount : Node → Nat
  | leaf .. => 1
  | branch _ left right .. => left.leafCount + right.leafCount

/-- The bytes of the leaves, from left to right. -/
def toBytes : Node → Bytes
  | leaf _ bytes => bytes
  | branch _ left right .. => left.toBytes ++ right.toBytes

/-! ## Balanced trees -/

/-- A new leaf. -/
def ofChunk (bytes : Bytes) : Node :=
  leaf none bytes

/-- A new branch, with its length and height taken from its two sides. -/
def pair (left right : Node) : Node :=
  branch none left right (left.length + right.length) (1 + max left.height right.height)

/-- Lift the right child to the top.  A tree without a branch on its right stays
as it is. -/
def rotateLeft : Node → Node
  | branch _ a (branch _ b c ..) .. => pair (pair a b) c
  | n => n

/-- Lift the left child to the top.  A tree without a branch on its left stays
as it is. -/
def rotateRight : Node → Node
  | branch _ (branch _ a b ..) c .. => pair a (pair b c)
  | n => n

/-- Is the left side of a branch lower than its right side? -/
def leansRight : Node → Bool
  | leaf .. => false
  | branch _ left right .. => left.height < right.height

/-- Is the right side of a branch lower than its left side? -/
def leansLeft : Node → Bool
  | leaf .. => false
  | branch _ left right .. => right.height < left.height

/-- Put two trees side by side.  When one is two levels higher than the other, a
rotation evens them out, and a first rotation inside the higher one makes sure
that the second does not move the surplus to the other side. -/
def balance (left right : Node) : Node :=
  if right.height + 1 < left.height then
    rotateRight (pair (if left.leansRight then rotateLeft left else left) right)
  else if left.height + 1 < right.height then
    rotateLeft (pair left (if right.leansLeft then rotateRight right else right))
  else pair left right

/-! ## Joining -/

/-- How many nodes the tree has. -/
def nodeCount : Node → Nat
  | leaf .. => 1
  | branch _ left right .. => 1 + left.nodeCount + right.nodeCount

/-- Put any two trees side by side.

The lower tree sinks along the near edge of the higher one until their heights
are close, and the path back is rebalanced.  Two leaves merge when one leaf can
hold their bytes; for this a lone leaf sinks to the edge leaf of its neighbour
even when the heights are already close. -/
def join (a b : Node) : Node :=
  match a, b with
  | leaf m x, leaf m' y =>
    if leafCapacity < x.length + y.length then pair (leaf m x) (leaf m' y)
    else ofChunk (x ++ y)
  | leaf m x, branch _ bl br .. => balance (join (leaf m x) bl) br
  | branch _ al ar .., leaf m y => balance al (join ar (leaf m y))
  | branch m al ar an ah, branch m' bl br bn bh =>
    if bh + 1 < ah then balance al (join ar (branch m' bl br bn bh))
    else if ah + 1 < bh then balance (join (branch m al ar an ah) bl) br
    else pair (branch m al ar an ah) (branch m' bl br bn bh)
termination_by a.nodeCount + b.nodeCount
decreasing_by all_goals simp only [nodeCount]; omega

/-- Put two trees side by side when each may be missing. -/
def join? : Option Node → Option Node → Option Node
  | none, b => b
  | a, none => a
  | some a, some b => some (join a b)

/-! ## Splitting -/

/-- A new leaf, unless there are no bytes to hold. -/
def chunk? (bytes : Bytes) : Option Node :=
  if bytes.isEmpty then none else some (ofChunk bytes)

/-- Cut a tree in front of offset `k`.  A side that would hold no byte is
missing, and a cut at either end, or between two subtrees, builds nothing. -/
def split (n : Node) (k : Nat) : Option Node × Option Node :=
  if k = 0 then (none, some n)
  else if n.length ≤ k then (some n, none)
  else
    match n with
    | leaf _ bytes => (chunk? (bytes.take k), chunk? (bytes.drop k))
    | branch _ left right .. =>
      if k < left.length then
        let (a, b) := split left k
        (a, join? b (some right))
      else if k = left.length then (some left, some right)
      else
        let (a, b) := split right (k - left.length)
        (join? (some left) a, b)

/-- Cut a tree that may be missing. -/
def split? : Option Node → Nat → Option Node × Option Node
  | none, _ => (none, none)
  | some n, k => n.split k

/-! ## Building -/

/-- How many bytes go to the left when `n` bytes are laid out: half of the
leaves, each of them full. -/
def leftShare (n : Nat) : Nat :=
  (n + leafCapacity - 1) / leafCapacity / 2 * leafCapacity

/-- More bytes than one leaf holds leave a full leaf on the left and something
on the right. -/
theorem leftShare_bounds {n : Nat} (h : leafCapacity < n) :
    0 < leftShare n ∧ leftShare n < n := by
  unfold leftShare leafCapacity at *
  omega

/-- A balanced tree of the bytes.  Both sides of every branch but the last leaf
consist of full leaves. -/
def build (bytes : Bytes) : Node :=
  if _ : bytes.length ≤ leafCapacity then ofChunk bytes
  else
    balance (build (bytes.take (leftShare bytes.length)))
      (build (bytes.drop (leftShare bytes.length)))
termination_by bytes.length
decreasing_by
  all_goals
    have := leftShare_bounds (Nat.lt_of_not_le ‹_›)
    simp only [List.length_take, List.length_drop]
    omega

/-- A balanced tree of the bytes, unless there are none. -/
def build? (bytes : Bytes) : Option Node :=
  if bytes.isEmpty then none else some (build bytes)

/-- Loads of more bytes than this are built in two halves at a time. -/
def parallelThreshold : Nat := 0x400000

/-- A balanced tree of the bytes; the left half of a large load is built by a
task of its own. -/
def buildParallel (bytes : Bytes) : Node :=
  if bytes.length ≤ parallelThreshold then build bytes
  else
    let share := leftShare bytes.length
    let left := Task.spawn fun _ => build (bytes.take share)
    let right := build (bytes.drop share)
    balance left.get right

/-! ## Reading -/

/-- The bytes from offset `lo` up to `hi`; only the nodes that hold some of them
are visited. -/
def copyRange : Node → Nat → Nat → Bytes
  | leaf _ bytes, lo, hi => (bytes.drop lo).take (hi - lo)
  | branch _ left right .., lo, hi =>
    if hi ≤ lo then []
    else if hi ≤ left.length then left.copyRange lo hi
    else if left.length ≤ lo then right.copyRange (lo - left.length) (hi - left.length)
    else left.copyRange lo left.length ++ right.copyRange 0 (hi - left.length)

/-- The byte at an offset, found by descending towards it. -/
def byteAt? : Node → Nat → Option UInt8
  | leaf _ bytes, k => bytes[k]?
  | branch _ left right .., k =>
    if k < left.length then left.byteAt? k else right.byteAt? (k - left.length)

/-! ## Completing a version -/

/-- Mark every node that the version has added, numbering them from `next` on.
The nodes above an unmarked one are unmarked as well, so a marked node closes
the walk.  The second component is the next free number. -/
def stamp (version : Nat) (n : Node) (next : Nat) : Node × Nat :=
  match n with
  | leaf none bytes => (leaf (some ⟨version, next⟩) bytes, next + 1)
  | branch none left right length height =>
    let (left, next') := stamp version left (next + 1)
    let (right, next'') := stamp version right next'
    (branch (some ⟨version, next⟩) left right length height, next'')
  | _ => (n, next)

end Node

end HexEditor
