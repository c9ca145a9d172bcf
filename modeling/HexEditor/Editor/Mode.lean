import HexEditor.Count
import HexEditor.Edit.Basic
import HexEditor.Key
import HexEditor.Pattern.Encoding

/-!
# Modes and prompts

What a key means depends on the mode.  Two of the modes edit a line of text, the
prompt, before anything else happens.

Main definitions:

- `Prompt` is a line of text with a cursor, and `Prompt.edit?` gives its keys a
  meaning.
- `Mode` lists the modes with what each of them remembers.
- `Mode.name` and `Mode.promptLine?` are what the status line shows.
-/

namespace HexEditor

/-! ## Prompts -/

/-- A line of text that is being edited. -/
structure Prompt where
  /-- The text. -/
  text : Text
  /-- The number of bytes in front of the cursor. -/
  cursor : Nat
deriving DecidableEq

namespace Prompt

/-- The empty line. -/
def empty : Prompt := ⟨[], 0⟩

/-- Insert a text at the cursor, which moves behind it. -/
def insert (p : Prompt) (text : Text) : Prompt :=
  ⟨p.text.take p.cursor ++ text ++ p.text.drop p.cursor, p.cursor + text.length⟩

/-- Edit the line by a key.  A key without a meaning for it is refused. -/
def edit? (p : Prompt) (key : Key) : Option Prompt :=
  match key with
  | .left => some { p with cursor := p.cursor - 1 }
  | .right => some { p with cursor := if p.cursor < p.text.length then p.cursor + 1 else p.cursor }
  | .backspace =>
    some (if p.cursor = 0 then p else ⟨p.text.eraseIdx (p.cursor - 1), p.cursor - 1⟩)
  | .delete => some { p with text := p.text.eraseIdx p.cursor }
  | key => key.plain?.map fun code => p.insert [byteOfCode code]
where
  /-- The byte that a character code leaves. -/
  byteOfCode (code : Int) : UInt8 := (code % 256).toNat.toUInt8

end Prompt

/-! ## Modes -/

/-- What a pattern that is being entered will be used for. -/
inductive Purpose where
  /-- Select its matches inside the selections. -/
  | selectInSelections
  /-- Select its matches in the whole file. -/
  | selectInBuffer
  /-- Reduce each selection to its matches. -/
  | split
deriving DecidableEq

/-- How keys are understood. -/
inductive Mode where
  /-- Keys are commands. -/
  | normal
  /-- The next key names the target of a jump. -/
  | jump (extend : Bool)
  /-- The next key says how to split the selections. -/
  | split
  /-- Keys are inserted on one side of the selections.  In hex the first digit of
  a byte waits in the upper half. -/
  | insert (encoding : Encoding) (side : Side) (half : Option UInt8)
  /-- Keys overwrite the selections. -/
  | replace (encoding : Encoding) (half : Option UInt8)
  /-- Keys edit a pattern. -/
  | pattern (encoding : Encoding) (purpose : Purpose) (prompt : Prompt)
  /-- Keys edit a command line. -/
  | command (prompt : Prompt)
deriving DecidableEq

namespace Mode

/-- A label with the encoding in parentheses, and with the digit that waits. -/
def labelled (label : Text) (encoding : Encoding) (half : Option UInt8) : Text :=
  let waiting :=
    match half with
    | none => []
    | some half => ascii ": " ++ Text.hexadecimal (half.toNat / 16) ++ ascii "..."
  label ++ ascii " (" ++ encoding.name ++ waiting ++ ascii ")"

/-- A label with the count in parentheses, if there is one to show. -/
def counted (label : Text) (count : Count) : Text :=
  let shown := count.describe
  if shown.isEmpty then label else label ++ ascii " (" ++ shown ++ ascii ")"

/-- The name of the mode in the status line. -/
def name (mode : Mode) (count : Count) : Text :=
  match mode with
  | normal => counted (ascii "NORMAL") count
  | jump extend => if extend then ascii "EXTEND" else ascii "JUMP"
  | split => counted (ascii "SPLIT") count
  | insert encoding .before half => labelled (ascii "INSERT") encoding half
  | insert encoding .after half => labelled (ascii "APPEND") encoding half
  | replace encoding half => labelled (ascii "REPLACE") encoding half
  | pattern encoding .split _ => labelled (ascii "SPLIT") encoding none
  | pattern encoding .selectInSelections _ => labelled (ascii "SELECT") encoding none
  | pattern encoding .selectInBuffer _ => labelled (ascii "SEARCH") encoding none
  | command _ => ascii "COMMAND"

/-- The prompt as it is shown, with the column of its cursor. -/
def promptLine? : Mode → Option (Text × Nat)
  | command prompt => some (ascii ":" ++ prompt.text, 1 + prompt.cursor)
  | pattern encoding _ prompt =>
    let label := encoding.name ++ ascii "> "
    some (label ++ prompt.text, label.length + prompt.cursor)
  | _ => none

end Mode

end HexEditor
