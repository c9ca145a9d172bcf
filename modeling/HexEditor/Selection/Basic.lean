import HexEditor.Offset

/-!
# A selection

A selection has two ends: the anchor, where it was begun, and the cursor, which
moves.  It covers both ends and everything between them, so it covers at least
one offset; the offset behind the last byte of a file may be among them.

Main definitions:

- `Selection` with `first`, `last` and `isBackward`.
- `Selection.covered` is the range of bytes below a selection.
- `Selection.oriented` and `Selection.ofRange` build a selection from its two
  ends and a direction.
-/

namespace HexEditor

/-- A selection from its anchor to its cursor, both included. -/
structure Selection where
  /-- The end that stays. -/
  anchor : Nat
  /-- The end that moves. -/
  cursor : Nat
deriving DecidableEq, Inhabited

namespace Selection

/-- The lower end. -/
def first (s : Selection) : Nat := min s.anchor s.cursor

/-- The upper end. -/
def last (s : Selection) : Nat := max s.anchor s.cursor

/-- How many offsets the selection covers. -/
def span (s : Selection) : Nat := wrap (s.last - s.first + 1)

/-- Does the cursor stand before the anchor? -/
def isBackward (s : Selection) : Bool := s.cursor < s.anchor

/-- The offset behind the selection. -/
def behind (s : Selection) : Nat := wrap (s.last + 1)

/-- The selection of one offset. -/
def point (offset : Nat) : Selection := ⟨offset, offset⟩

/-- The selection between two ends, with its cursor on the lower one if it is to
be backward. -/
def oriented (backward : Bool) (low high : Nat) : Selection :=
  if backward then ⟨high, low⟩ else ⟨low, high⟩

/-- The selection of a range.  An empty range gives the point at its start. -/
def ofRange (range : Range) (backward : Bool) : Selection :=
  oriented backward range.start (if range.isEmpty then range.start else range.stop - 1)

/-- The bytes below the selection in a file of the given length. -/
def covered (s : Selection) (length : Nat) : Range :=
  let low := min s.first length
  ⟨low, max low (min s.behind length)⟩

/-- The selection of the cursor alone. -/
def collapsed (s : Selection) : Selection := point s.cursor

/-- The selection with its ends exchanged. -/
def swapped (s : Selection) : Selection := ⟨s.cursor, s.anchor⟩

/-- The same offsets in the given direction. -/
def withDirection (backward : Bool) (s : Selection) : Selection :=
  oriented backward s.first s.last

/-- Both ends moved by a displacement; either stops where the offsets end. -/
def shifted (displacement : Int) (s : Selection) : Selection :=
  ⟨shift displacement s.anchor, shift displacement s.cursor⟩

/-- Both ends moved back to the given length. -/
def clamped (length : Nat) (s : Selection) : Selection :=
  ⟨min s.anchor length, min s.cursor length⟩

/-- Do the two selections share an offset? -/
def overlaps (s t : Selection) : Bool :=
  s.first ≤ t.last && t.first ≤ s.last

/-- The smallest selection that covers both, in the direction of the first. -/
def cover (s t : Selection) : Selection :=
  oriented s.isBackward (min s.first t.first) (max s.last t.last)

end Selection

end HexEditor
