import HexEditor.Pattern.Encoding
import Mathlib.Tactic.Common

/-!
# Reading back what was written

A pattern can be written in two encodings, and each is read by a loop of its own.  Reading
takes one piece at a time off the front, and what follows it in the text, be it a separator,
a question mark or a backslash, is never taken for a part of it.  So by induction on the
pattern all of it is read back.

Main results:

- Theorems `Pattern.parseHex_renderHexPiece` and `Pattern.parseAscii_renderAsciiPiece`: one
  piece is read off the front of a text.
- Theorem `Pattern.parse_render`: in both encodings a pattern that was written is read back.
-/

namespace HexEditor

/-! ## Digits -/

namespace Text

theorem hexDigit?_nibble : ∀ n < 16, hexDigit? (nibble n) = some n := by
  decide

theorem isBlank_nibble : ∀ n < 16, isBlank (nibble n) = false := by
  decide

theorem nibble_ne_questionMark : ∀ n < 16, nibble n ≠ 63 := by
  decide

/-- The digits of a byte have its two halves as their values. -/
theorem hexDigit?_byteDigits (byte : UInt8) :
    hexDigit? (nibble (byte.toNat / 16)) = some (byte.toNat / 16) ∧
      hexDigit? (nibble (byte.toNat % 16)) = some (byte.toNat % 16) := by
  have hbyte := byte.toNat_lt
  exact ⟨hexDigit?_nibble _ (by omega), hexDigit?_nibble _ (by omega)⟩

end Text

namespace Pattern

variable {text : Text} {pattern : Pattern}

theorem byteOf_halves (byte : UInt8) : byteOf (byte.toNat / 16) (byte.toNat % 16) = byte := by
  rw [byteOf, Nat.div_add_mod]
  exact UInt8.ofNat_toNat

/-! ## Hex -/

/-- The pair that a piece is written as is read as this piece. -/
theorem parsePair_renderHexPiece (place : Nat) (piece : Piece) :
    ∃ c d, renderHexPiece piece = [c, d] ∧ Text.isBlank c = false ∧
      parsePair place c d = .ok piece := by
  cases piece with
  | literal byte =>
      have hbyte := byte.toNat_lt
      have hhigh := Text.nibble_ne_questionMark (byte.toNat / 16) (by omega)
      have hlow := Text.nibble_ne_questionMark (byte.toNat % 16) (by omega)
      refine ⟨_, _, rfl, Text.isBlank_nibble _ (by omega), ?_⟩
      rw [parsePair, if_neg (fun h => hhigh h.1), if_neg (fun h => h.elim hhigh hlow),
        (Text.hexDigit?_byteDigits byte).1, (Text.hexDigit?_byteDigits byte).2]
      dsimp only
      rw [byteOf_halves]
  | wildcard => exact ⟨63, 63, rfl, rfl, rfl⟩

/-- A blank means nothing, wherever it stands between two pairs. -/
theorem parseHex_blank {b : UInt8} (hblank : Text.isBlank b = true) (place : Nat) (text : Text) :
    parseHex place (b :: text) = parseHex (place + 1) text := by
  cases text with
  | nil => simp [parseHex, hblank]
  | cons d rest => rw [parseHex, if_pos hblank]

/-- A pair is read off the front of a text. -/
theorem parseHex_pair {place : Nat} {c d : UInt8} {piece : Piece}
    (hblank : Text.isBlank c = false) (hpair : parsePair place c d = .ok piece) (text : Text) :
    parseHex place (c :: d :: text) = (parseHex (place + 2) text).map (piece :: ·) := by
  rw [parseHex, hblank, if_neg Bool.false_ne_true, hpair]
  cases parseHex (place + 2) text <;> rfl

theorem parseHex_renderHexPiece {place : Nat} (piece : Piece)
    (h : parseHex (place + 2) text = .ok pattern) :
    parseHex place (renderHexPiece piece ++ text) = .ok (piece :: pattern) := by
  rcases parsePair_renderHexPiece place piece with ⟨c, d, hpiece, hblank, hpair⟩
  rw [hpiece, List.cons_append, List.cons_append, List.nil_append, parseHex_pair hblank hpair, h]
  rfl

/-- A pattern in hex is read back wherever it stands. -/
theorem parseHex_render (place : Nat) (pattern : Pattern) :
    parseHex place (render .hex pattern) = .ok pattern := by
  induction pattern generalizing place with
  | nil => rfl
  | cons piece pattern ih =>
      cases pattern with
      | nil =>
          have hlast : parseHex (place + 2) [] = .ok [] := rfl
          exact parseHex_renderHexPiece piece hlast
      | cons next pattern =>
          have hspace : render .hex (piece :: next :: pattern) =
              renderHexPiece piece ++ 32 :: render .hex (next :: pattern) := rfl
          rw [hspace]
          refine parseHex_renderHexPiece piece ?_
          rw [parseHex_blank rfl]
          exact ih _

/-! ## Ascii -/

/-- A byte that is no backslash is read off the front of a text as itself. -/
theorem parseAscii_cons {byte : UInt8} (hbyte : byte ≠ 92) (text : Text) :
    parseAscii (byte :: text) = (parseAscii text).map (.literal byte :: ·) := by
  cases text with
  | nil => simp [parseAscii, hbyte, Except.map]
  | cons e rest =>
      rw [parseAscii.eq_def]
      dsimp only
      rw [if_pos hbyte]
      cases parseAscii (e :: rest) <;> rfl

theorem parseAscii_escapedMark (text : Text) :
    parseAscii (92 :: 63 :: text) = (parseAscii text).map (.wildcard :: ·) := by
  rw [parseAscii.eq_def]
  dsimp only
  rw [if_neg (by decide), if_pos rfl]
  cases parseAscii text <;> rfl

theorem parseAscii_escapedBackslash (text : Text) :
    parseAscii (92 :: 92 :: text) = (parseAscii text).map (.literal 92 :: ·) := by
  rw [parseAscii.eq_def]
  dsimp only
  rw [if_neg (by decide), if_neg (by decide), if_pos rfl]
  cases parseAscii text <;> rfl

/-- The digits of an escape are read off the front of a text, whatever follows them. -/
theorem parseAscii_escapedDigits {c d : UInt8} {high low : Nat}
    (hhigh : Text.hexDigit? c = some high) (hlow : Text.hexDigit? d = some low) (text : Text) :
    parseAscii (92 :: 120 :: c :: d :: text) =
      (parseAscii text).map (.literal (byteOf high low) :: ·) := by
  rw [parseAscii.eq_def]
  dsimp only
  rw [if_neg (by decide), if_neg (by decide), if_neg (by decide), if_pos rfl, hhigh, hlow]
  cases parseAscii text <;> rfl

/-- A byte that is no backslash stands for itself. -/
theorem parseAscii_plain {byte : UInt8} (hbyte : byte ≠ 92)
    (h : parseAscii text = .ok pattern) :
    parseAscii (byte :: text) = .ok (.literal byte :: pattern) := by
  rw [parseAscii_cons hbyte, h]
  rfl

theorem parseAscii_wildcard (h : parseAscii text = .ok pattern) :
    parseAscii (92 :: 63 :: text) = .ok (.wildcard :: pattern) := by
  rw [parseAscii_escapedMark, h]
  rfl

theorem parseAscii_backslash (h : parseAscii text = .ok pattern) :
    parseAscii (92 :: 92 :: text) = .ok (.literal 92 :: pattern) := by
  rw [parseAscii_escapedBackslash, h]
  rfl

/-- The digits of an escape are read as the byte. -/
theorem parseAscii_escape (byte : UInt8) (h : parseAscii text = .ok pattern) :
    parseAscii (92 :: 120 :: (Text.byteDigits byte ++ text)) = .ok (.literal byte :: pattern) := by
  rcases Text.hexDigit?_byteDigits byte with ⟨hhigh, hlow⟩
  rw [Text.byteDigits, List.cons_append, List.cons_append, List.nil_append,
    parseAscii_escapedDigits hhigh hlow, h, byteOf_halves]
  rfl

theorem parseAscii_renderAsciiPiece (piece : Piece) (h : parseAscii text = .ok pattern) :
    parseAscii (renderAsciiPiece piece ++ text) = .ok (piece :: pattern) := by
  cases piece with
  | literal byte =>
      rw [renderAsciiPiece]
      split
      · rename_i hbackslash
        subst hbackslash
        exact parseAscii_backslash h
      · rename_i hbackslash
        split
        · exact parseAscii_plain hbackslash h
        · exact parseAscii_escape byte h
  | wildcard =>
      exact parseAscii_wildcard h

theorem parseAscii_render (pattern : Pattern) :
    parseAscii (render .ascii pattern) = .ok pattern := by
  induction pattern with
  | nil => rfl
  | cons piece pattern ih => exact parseAscii_renderAsciiPiece piece ih

/-- In both encodings a pattern that was written is read back. -/
theorem parse_render (encoding : Encoding) (pattern : Pattern) :
    parse encoding (render encoding pattern) = .ok pattern := by
  cases encoding with
  | hex => exact parseHex_render 0 pattern
  | ascii => exact parseAscii_render pattern

end Pattern

end HexEditor
