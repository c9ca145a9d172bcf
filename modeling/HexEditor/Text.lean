/-!
# Byte strings

Everything the editor reads or writes is a sequence of bytes: the contents of
files, but also the text that a person types and reads.  This module fixes the
two names for such sequences and the few ways of writing and reading them that
the rest of the library shares.

Main definitions:

- `Bytes` is file content and `Text` is a byte string that is meant to be read.
- `ascii` writes a literal, `decimal` and `hexadecimal` write numbers.
- `hexDigit?` reads a digit of either case and `isBlank` recognises the six
  whitespace bytes.
- `words` cuts a line at whitespace.
-/

namespace HexEditor

/-- A sequence of bytes, such as the content of a file. -/
abbrev Bytes := List UInt8

/-- A byte string that is read as text: a message, a path, a command line. -/
abbrev Text := List UInt8

/-- The bytes of a literal whose characters are all below 256. -/
def ascii (s : String) : Text :=
  s.toList.map fun c => c.toNat.toUInt8

namespace Text

/-! ## Numbers -/

/-- A number in decimal, without leading zeros. -/
def decimal (n : Nat) : Text :=
  (Nat.toDigits 10 n).map fun c => c.toNat.toUInt8

/-- A number in lowercase hexadecimal, without leading zeros. -/
def hexadecimal (n : Nat) : Text :=
  (Nat.toDigits 16 n).map fun c => c.toNat.toUInt8

/-- A number in lowercase hexadecimal, filled with zeros on the left up to the
given width. -/
def hexadecimalPadded (width n : Nat) : Text :=
  let digits := hexadecimal n
  List.replicate (width - digits.length) 48 ++ digits

/-- The lowercase digit of a half byte. -/
def nibble (n : Nat) : UInt8 :=
  if n < 10 then (48 + n).toUInt8 else (87 + n).toUInt8

/-- The two lowercase digits of a byte. -/
def byteDigits (b : UInt8) : Text :=
  [nibble (b.toNat / 16), nibble (b.toNat % 16)]

/-- The value of a hexadecimal digit of either case. -/
def hexDigit? (b : UInt8) : Option Nat :=
  if 48 ≤ b ∧ b ≤ 57 then some (b.toNat - 48)
  else if 97 ≤ b ∧ b ≤ 102 then some (b.toNat - 87)
  else if 65 ≤ b ∧ b ≤ 70 then some (b.toNat - 55)
  else none

/-- Is the byte a decimal digit? -/
def isDecimalDigit (b : UInt8) : Bool :=
  48 ≤ b && b ≤ 57

/-! ## Blanks and words -/

/-- The whitespace bytes: space, and the five controls from tab to carriage
return. -/
def isBlank (b : UInt8) : Bool :=
  b == 32 || (9 ≤ b && b ≤ 13)

/-- Is the byte drawn as itself?  These are the bytes from space to tilde. -/
def isPrintable (b : UInt8) : Bool :=
  32 ≤ b && b < 127

/-- The words of a line whose first word has begun with the given bytes, latest
first. -/
def wordsAfter (begun : Text) : Text → List Text
  | [] => if begun.isEmpty then [] else [begun.reverse]
  | b :: rest =>
    if isBlank b then
      if begun.isEmpty then wordsAfter [] rest else begun.reverse :: wordsAfter [] rest
    else wordsAfter (b :: begun) rest

/-- The maximal runs of bytes that are not blank, in order. -/
def words (line : Text) : List Text :=
  wordsAfter [] line

/-- The text without blanks at either end. -/
def trim (t : Text) : Text :=
  ((t.dropWhile isBlank).reverse.dropWhile isBlank).reverse

end Text

end HexEditor
