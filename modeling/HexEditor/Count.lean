import HexEditor.Offset

/-!
# Counts

A number can be typed ahead of a command.  It is entered in decimal, or in
hexadecimal after a toggle, and it stops at the largest word instead of starting
again at zero.

Main definitions:

- `Count` with `digit?`, `toggleHex` and `backspace?` for the keys.
- `Count.value` and `Count.valueOr` for the command that takes it.
- `Count.describe` for the status line.
-/

namespace HexEditor

/-- A number that is being typed. -/
structure Count where
  /-- The number so far. -/
  value : Nat
  /-- Has a digit been typed? -/
  typed : Bool
  /-- Are the digits hexadecimal? -/
  hex : Bool
deriving DecidableEq

namespace Count

/-- Nothing has been typed. -/
def empty : Count := ⟨0, false, false⟩

/-- The base of the digits. -/
def base (c : Count) : Nat := if c.hex then 16 else 10

/-- The value of a digit in the current base.  Letters count in lowercase only. -/
def digitValue? (hex : Bool) (code : Int) : Option Nat :=
  if 48 ≤ code ∧ code ≤ 57 then some (code - 48).toNat
  else if hex = true ∧ 97 ≤ code ∧ code ≤ 102 then some (code - 87).toNat
  else none

/-- Type a digit.  A code that is not a digit of the current base is refused. -/
def digit? (c : Count) (code : Int) : Option Count :=
  (digitValue? c.hex code).map fun d =>
    let value := if (lastOffset - d) / c.base < c.value then lastOffset else c.value * c.base + d
    { c with value, typed := true }

/-- Change between decimal and hexadecimal.  The number stays. -/
def toggleHex (c : Count) : Count :=
  { c with hex := !c.hex }

/-- Remove the last digit, if there is one.  A number that has come down to zero
counts as not typed. -/
def backspace? (c : Count) : Option Count :=
  if c.typed then
    let value := c.value / c.base
    some { c with value, typed := value != 0 }
  else none

/-- The number, or the given one if none has been typed. -/
def valueOr (c : Count) (otherwise : Nat) : Nat :=
  if c.typed then c.value else otherwise

/-- The count as the status line shows it; empty when there is nothing to show. -/
def describe (c : Count) : Text :=
  if c.hex then
    ascii "0x" ++ (if c.typed then Text.hexadecimal c.value else [])
  else if c.typed then Text.decimal c.value
  else []

end Count

end HexEditor
