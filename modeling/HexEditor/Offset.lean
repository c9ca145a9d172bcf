import HexEditor.Text

/-!
# Offsets and ranges

An offset counts bytes from the start of a file.  Offsets are machine words of
64 bits, so the sums that can pass the last word start again at zero; a signed
displacement, on the other hand, stops at either end.  Offsets are kept as
natural numbers, and the reduction is written exactly where it can be seen.

Main definitions:

- `wrap` reduces a sum to a word, and `shift` moves an offset without leaving
  the words.
- `Range` is the half-open interval from `start` to `stop`.
- `rowStart` and `rowEnd` are the ends of the row in which an offset is shown.
-/

namespace HexEditor

/-- How many offsets there are: two to the 64. -/
def offsetCount : Nat := 0x10000000000000000

/-- The largest offset. -/
def lastOffset : Nat := offsetCount - 1

/-- The word that a sum of words leaves. -/
def wrap (n : Nat) : Nat :=
  n % offsetCount

/-- Move an offset by a signed displacement and stop at zero and at the largest
offset. -/
def shift (displacement : Int) (offset : Nat) : Nat :=
  min (offset + displacement).toNat lastOffset

/-- The half-open interval from `start` to `stop`. -/
structure Range where
  /-- The first offset of the range. -/
  start : Nat
  /-- The first offset behind the range. -/
  stop : Nat
deriving DecidableEq

namespace Range

/-- How many offsets lie between the ends, as a word: a range whose ends are
exchanged has the size that the subtraction of words leaves. -/
def size (r : Range) : Nat :=
  wrap (r.stop + offsetCount - r.start)

/-- Does the range hold no offset? -/
def isEmpty (r : Range) : Bool :=
  r.stop ≤ r.start

/-- The range in the notation of error messages: `[start, stop)`. -/
def describe (r : Range) : Text :=
  ascii "[" ++ Text.decimal r.start ++ ascii ", " ++ Text.decimal r.stop ++ ascii ")"

end Range

/-! ## Rows of the display -/

/-- The first offset of the row that shows the offset. -/
def rowStart (offset width : Nat) : Nat :=
  if width = 0 then offset else offset - offset % width

/-- The last offset of the row that shows the offset, or the last byte of a file
of the given length when that comes first. -/
def rowEnd (offset width length : Nat) : Nat :=
  if width = 0 then min offset (length - 1)
  else min (wrap (rowStart offset width + width - 1)) (length - 1)

end HexEditor
