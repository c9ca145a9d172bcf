import HexEditor.Offset
import HexEditor.Rope.Chunks

/-!
# Ropes: versions of a byte sequence

A rope is one immutable version of a file's bytes.  Editing a rope gives a new
rope, and both share every chunk that the edit left alone.

Two ropes can hold the same bytes and still be different versions: saving and
undoing need to know whether a version is the very one seen before.  A version
that has been completed carries a mark on its root, and completing hands out
each mark once, so equal marks mean the same version.

Main definitions:

- `Rope.ofBytes`, `Rope.slice`, `Rope.byteAt` and `Rope.splice` build, read and
  edit a rope; a range that does not fit is refused with a `RangeError`.
- `Rope.chunks` walks a range chunk by chunk, clamped to the rope.
- `Rope.sameBytes` compares contents across different chunk boundaries, and
  `Rope.sameVersion` compares identities.
- `Rope.complete` marks the nodes that a new version added.
-/

namespace HexEditor

/-- Why a rope refused an offset or a range. -/
inductive RangeError where
  /-- The range to be read does not lie in a rope of that length. -/
  | slice (range : Range) (length : Nat)
  /-- The range to be replaced does not lie in a rope of that length. -/
  | splice (range : Range) (length : Nat)
  /-- There is no byte at the offset. -/
  | byteAt (offset length : Nat)
deriving DecidableEq

namespace RangeError

/-- The wording of a refusal. -/
def message : RangeError → Text
  | slice range length =>
    ascii "slice " ++ range.describe ++ ascii " exceeds length " ++ Text.decimal length
  | splice range length =>
    ascii "splice " ++ range.describe ++ ascii " exceeds length " ++ Text.decimal length
  | byteAt offset length =>
    ascii "offset " ++ Text.decimal offset ++ ascii " exceeds length " ++ Text.decimal length

end RangeError

/-- One version of a byte sequence; an empty sequence has no tree. -/
structure Rope where
  /-- The tree that holds the bytes. -/
  root : Option Node
deriving Inhabited

namespace Rope

/-! ## Views -/

/-- The version without bytes. -/
def empty : Rope := ⟨none⟩

/-- How many bytes the version holds. -/
def length (r : Rope) : Nat :=
  match r.root with
  | none => 0
  | some n => n.length

/-- How many leaves hold the bytes. -/
def leafCount (r : Rope) : Nat :=
  match r.root with
  | none => 0
  | some n => n.leafCount

/-- How many levels the tree has. -/
def height (r : Rope) : Nat :=
  match r.root with
  | none => 0
  | some n => n.height

/-- The bytes of the version, read off the leaves. -/
def toBytes (r : Rope) : Bytes :=
  match r.root with
  | none => []
  | some n => n.toBytes

/-! ## Building and editing -/

/-- A new version of the given bytes. -/
def ofBytes (bytes : Bytes) : Rope :=
  ⟨if bytes.isEmpty then none else some (Node.buildParallel bytes)⟩

/-- Does the range lie in the version, with its ends in order? -/
def Holds (r : Rope) (range : Range) : Prop :=
  range.start ≤ range.stop ∧ range.stop ≤ r.length

instance (r : Rope) (range : Range) : Decidable (r.Holds range) :=
  inferInstanceAs (Decidable (_ ∧ _))

/-- The bytes of a range, as far as the version goes. -/
def read (r : Rope) (range : Range) : Bytes :=
  match r.root with
  | none => []
  | some n => n.copyRange range.start range.stop

/-- The bytes of a range that lies in the version. -/
def slice (r : Rope) (range : Range) : Except RangeError Bytes :=
  if r.Holds range then .ok (r.read range) else .error (.slice range r.length)

/-- The byte at an offset of the version. -/
def byteAt (r : Rope) (offset : Nat) : Except RangeError UInt8 :=
  match if offset < r.length then r.root.bind (·.byteAt? offset) else none with
  | some b => .ok b
  | none => .error (.byteAt offset r.length)

/-- Replace a range by other bytes.

The version is cut at both ends of the range, and the two outer parts are joined
with a tree of the replacement between them.  Replacing nothing by nothing gives
the version itself. -/
def splice (r : Rope) (range : Range) (replacement : Bytes) : Except RangeError Rope :=
  if r.Holds range then
    if range.isEmpty && replacement.isEmpty then .ok r
    else
      let (before, rest) := Node.split? r.root range.start
      let (_, after) := Node.split? rest (range.stop - range.start)
      .ok ⟨Node.join? (Node.join? before (Node.build? replacement)) after⟩
  else .error (.splice range r.length)

/-! ## Walking and comparing -/

/-- A walk over the chunks of a range; the range is clamped to the version. -/
def chunks (r : Rope) (range : Range) : Chunks :=
  Chunks.over r.root range.start range.stop

/-- Compare what two walks still have to hand out, each preceded by the unread
part of its current chunk.  A side is refilled when its part is used up, so the
chunks of the two sides need not begin at the same offsets. -/
def sameRest (x : Bytes) (xs : Chunks) (y : Bytes) (ys : Chunks) : Bool :=
  match x, y with
  | a :: x, b :: y => a == b && sameRest x xs y ys
  | [], y =>
    match _h : xs.next? with
    | some (x, xs) => sameRest x xs y ys
    | none => y.isEmpty && ys.next?.isNone
  | a :: x, [] =>
    match _h : ys.next? with
    | some (y, ys) => sameRest (a :: x) xs y ys
    | none => false
termination_by x.length + xs.weight + (y.length + ys.weight)
decreasing_by
  · simp only [List.length_cons]; omega
  · have := Chunks.weight_next ‹_›; simp only [List.length_nil]; omega
  · have := Chunks.weight_next ‹_›; simp only [List.length_cons, List.length_nil]; omega

/-- Are the two ropes the very same version?  Versions without bytes are all the
same. -/
def sameVersion (r s : Rope) : Bool :=
  match r.root, s.root with
  | none, none => true
  | some m, some n => m.mark.isSome && m.mark == n.mark
  | _, _ => false

/-- Do the two versions hold the same bytes? -/
def sameBytes (r s : Rope) : Bool :=
  if r.sameVersion s then true
  else if r.length ≠ s.length then false
  else sameRest [] (r.chunks ⟨0, r.length⟩) [] (s.chunks ⟨0, s.length⟩)

/-- Complete a new version: every node that it added gets a mark of that version.
What it shares with earlier versions keeps the marks it has. -/
def complete (version : Nat) (r : Rope) : Rope :=
  ⟨r.root.map fun n => (n.stamp version 0).1⟩

end Rope

end HexEditor
