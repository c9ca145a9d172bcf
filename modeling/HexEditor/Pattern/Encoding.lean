import HexEditor.Pattern.Basic

/-!
# Patterns as text

A pattern can be written in two encodings.  In hex, every byte is a pair of
digits, `??` is a wildcard and blanks separate.  In ascii, every byte stands for
itself except the backslash, which begins an escape: `\?` is a wildcard, `\\` a
backslash and `\x` with two digits any byte.

Main definitions:

- `Pattern.parse` reads a pattern and says why a text is not one.
- `Pattern.render` writes a pattern in either encoding.
- `PatternError` lists the reasons, and `PatternError.message` words them.
-/

namespace HexEditor

/-- The two ways of writing bytes. -/
inductive Encoding where
  /-- Two digits for a byte. -/
  | hex
  /-- One character for a byte. -/
  | ascii
deriving DecidableEq

namespace Encoding

/-- The other encoding. -/
def toggle : Encoding → Encoding
  | hex => ascii
  | ascii => hex

/-- The name that the status line shows. -/
def name : Encoding → Text
  | hex => HexEditor.ascii "hex"
  | ascii => HexEditor.ascii "ascii"

end Encoding

/-- Why a text is not a pattern. -/
inductive PatternError where
  /-- A question mark that is not half of a wildcard, at that place. -/
  | loneWildcard (place : Nat)
  /-- A digit without a partner. -/
  | oddDigits
  /-- A byte where a digit was expected. -/
  | notADigit (byte : UInt8)
  /-- The text ends after a backslash. -/
  | openEscape
  /-- The text ends within the digits of an escape. -/
  | shortByteEscape
  /-- An escape for a byte that lacks its two digits. -/
  | badByteEscape
  /-- A backslash before a byte that begins no escape. -/
  | unknownEscape (byte : UInt8)
deriving DecidableEq

namespace PatternError

/-- The wording of a refusal. -/
def message : PatternError → Text
  | loneWildcard place => ascii "unterminated wildcard at " ++ Text.decimal place
  | oddDigits => ascii "odd number of hex digits"
  | notADigit byte => ascii "not a hex digit: '" ++ [byte] ++ ascii "'"
  | openEscape => ascii "unterminated escape at end of pattern"
  | shortByteEscape => ascii "unterminated \\x escape"
  | badByteEscape => ascii "\\x needs two hex digits"
  | unknownEscape byte => ascii "unknown escape \\" ++ [byte]

end PatternError

namespace Pattern

/-- The byte with the given half bytes. -/
def byteOf (high low : Nat) : UInt8 :=
  (16 * high + low).toUInt8

/-! ## Reading -/

/-- Read one pair in hex.  The first byte is not blank, and it stands at the
given place. -/
def parsePair (place : Nat) (c d : UInt8) : Except PatternError Piece :=
  if c = 63 ∧ d = 63 then .ok .wildcard
  else if c = 63 ∨ d = 63 then .error (.loneWildcard place)
  else
    match Text.hexDigit? c, Text.hexDigit? d with
    | none, _ => .error (.notADigit c)
    | some _, none =>
      .error (if Text.isBlank d then .oddDigits else .notADigit d)
    | some high, some low => .ok (.literal (byteOf high low))

/-- Read a pattern in hex from the given place on. -/
def parseHex (place : Nat) : Text → Except PatternError Pattern
  | [] => .ok []
  | [c] =>
    if Text.isBlank c then .ok []
    else .error (if c = 63 then .loneWildcard place else .oddDigits)
  | c :: d :: rest =>
    if Text.isBlank c then parseHex (place + 1) (d :: rest)
    else do
      let piece ← parsePair place c d
      let pieces ← parseHex (place + 2) rest
      return piece :: pieces

/-- Read a pattern in ascii. -/
def parseAscii : Text → Except PatternError Pattern
  | [] => .ok []
  | [c] => if c = 92 then .error .openEscape else .ok [.literal c]
  | c :: e :: rest =>
    if c ≠ 92 then do
      let pieces ← parseAscii (e :: rest)
      return .literal c :: pieces
    else if e = 63 then do
      let pieces ← parseAscii rest
      return .wildcard :: pieces
    else if e = 92 then do
      let pieces ← parseAscii rest
      return .literal 92 :: pieces
    else if e = 120 then
      match rest with
      | high :: low :: rest =>
        match Text.hexDigit? high, Text.hexDigit? low with
        | some high, some low => do
          let pieces ← parseAscii rest
          return .literal (byteOf high low) :: pieces
        | _, _ => .error .badByteEscape
      | _ => .error .shortByteEscape
    else .error (.unknownEscape e)

/-- Read a pattern in the given encoding. -/
def parse (encoding : Encoding) (text : Text) : Except PatternError Pattern :=
  match encoding with
  | .hex => parseHex 0 text
  | .ascii => parseAscii text

/-! ## Writing -/

/-- A piece in hex. -/
def renderHexPiece : Piece → Text
  | .literal byte => Text.byteDigits byte
  | .wildcard => ascii "??"

/-- A piece in ascii.  A byte that is not printable is written by its digits. -/
def renderAsciiPiece : Piece → Text
  | .literal byte =>
    if byte = 92 then ascii "\\\\"
    else if Text.isPrintable byte then [byte]
    else ascii "\\x" ++ Text.byteDigits byte
  | .wildcard => ascii "\\?"

/-- Write a pattern.  In hex the pieces are separated by single spaces. -/
def render (encoding : Encoding) (pattern : Pattern) : Text :=
  match encoding with
  | .hex => (pattern.map renderHexPiece).intersperse (ascii " ") |>.flatten
  | .ascii => pattern.flatMap renderAsciiPiece

end Pattern

end HexEditor
