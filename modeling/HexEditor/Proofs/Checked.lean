import HexEditor.Offset

/-!
# Arithmetic with checks

Sums, products and differences of offsets are computed in words of 64 bits.  A computation that
checks every operation has no result as soon as one of them leaves the words or divides by zero.
If it has a result, none of its operations has wrapped.

Main definitions:

- `Checked.add?`, `Checked.mul?` and `Checked.sub?`: the result, if it is a word.
- `Checked.div?` and `Checked.mod?`: the result, unless the divisor is zero.
-/

namespace HexEditor

namespace Checked

/-- A result, if it is a word. -/
def word? (n : Nat) : Option Nat := if n < offsetCount then some n else none

/-- A sum, if it is a word. -/
def add? (a b : Nat) : Option Nat := word? (a + b)

/-- A product, if it is a word. -/
def mul? (a b : Nat) : Option Nat := word? (a * b)

/-- A difference, unless it is negative. -/
def sub? (a b : Nat) : Option Nat := if b ≤ a then some (a - b) else none

/-- A quotient, unless the divisor is zero. -/
def div? (a b : Nat) : Option Nat := if b = 0 then none else some (a / b)

/-- A remainder, unless the divisor is zero. -/
def mod? (a b : Nat) : Option Nat := if b = 0 then none else some (a % b)

variable {a b : Nat}

theorem add?_eq (h : a + b < offsetCount) : add? a b = some (a + b) := if_pos h

theorem mul?_eq (h : a * b < offsetCount) : mul? a b = some (a * b) := if_pos h

theorem sub?_eq (h : b ≤ a) : sub? a b = some (a - b) := if_pos h

theorem div?_eq (h : b ≠ 0) : div? a b = some (a / b) := if_neg h

theorem mod?_eq (h : b ≠ 0) : mod? a b = some (a % b) := if_neg h

end Checked

end HexEditor
