import HexEditor.Text

/-!
# Byte patterns

A pattern is a sequence of pieces, each of which meets exactly one byte: a
literal piece meets one value and a wildcard meets all of them.

Main definitions:

- `Piece`, `Piece.matches` and `Pattern`.
- `Pattern.heads` says whether a byte string begins with a match.
- `Pattern.greedy` lists the matches of a byte string from left to right, each
  one starting no earlier than the one before it has ended.
-/

namespace HexEditor

/-- One piece of a pattern, for one byte. -/
inductive Piece where
  /-- Exactly this byte. -/
  | literal (byte : UInt8)
  /-- Any byte. -/
  | wildcard
deriving DecidableEq

/-- Does the piece meet the byte? -/
def Piece.matches : Piece → UInt8 → Bool
  | literal byte, b => byte == b
  | wildcard, _ => true

/-- A sequence of pieces. -/
abbrev Pattern := List Piece

namespace Pattern

/-- Does the byte string begin with a match of the whole pattern? -/
def heads : Pattern → Bytes → Bool
  | [], _ => true
  | _ :: _, [] => false
  | p :: pattern, b :: bytes => p.matches b && heads pattern bytes

/-- The offsets at which the matches of a byte string begin, when the string
itself begins at `offset` and the first `skip` of its bytes belong to a match
already found. -/
def greedyFrom (pattern : Pattern) (offset : Nat) (skip : Nat) : Bytes → List Nat
  | [] => []
  | b :: bytes =>
    match skip with
    | skip + 1 => greedyFrom pattern (offset + 1) skip bytes
    | 0 =>
      if heads pattern (b :: bytes) then
        offset :: greedyFrom pattern (offset + 1) (pattern.length - 1) bytes
      else greedyFrom pattern (offset + 1) 0 bytes

/-- The offsets of the matches in a byte string, from left to right and without
overlaps.  The empty pattern has none. -/
def greedy (pattern : Pattern) (bytes : Bytes) : List Nat :=
  if pattern.isEmpty then [] else greedyFrom pattern 0 0 bytes

end Pattern

end HexEditor
