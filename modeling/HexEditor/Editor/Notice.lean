import HexEditor.Pattern.Encoding
import HexEditor.Session.Workspace

/-!
# Notices

The editor tells about the last command in one line of text.  A notice is the
cause of such a line; several of them report that a command has failed.

Main definitions:

- `Notice` and its wording, `Notice.message`.
- `Notice.isFailure` singles out the reports of failed commands.
-/

namespace HexEditor

/-- The display option that a command switches. -/
inductive Switch where
  /-- The column of characters. -/
  | characters
  /-- The column of offsets. -/
  | offsets
deriving DecidableEq

/-- The name of the option. -/
def Switch.name : Switch → Text
  | characters => ascii "ascii"
  | offsets => ascii "offsets"

/-- What is wrong with the argument of the width setting. -/
inductive WidthError where
  /-- There is no argument. -/
  | missing
  /-- The argument has something other than digits. -/
  | notANumber
  /-- The number is not a word. -/
  | tooBigForWord
  /-- The width is zero. -/
  | tooSmall
  /-- The width is beyond the limit. -/
  | tooLarge
deriving DecidableEq

/-- The most bytes that a row shows. -/
def widthLimit : Nat := 4096

/-- The wording of a refusal. -/
def WidthError.message : WidthError → Text
  | missing => ascii "set width: use :set width <bytes>"
  | notANumber => ascii "set width: width must be a number"
  | tooBigForWord => ascii "set width: invalid number"
  | tooSmall => ascii "set width: width must be >= 1"
  | tooLarge => ascii "set width: width must be <= " ++ Text.decimal widthLimit

/-- What the editor tells about the last command. -/
inductive Notice where
  /-- Nothing. -/
  | blank
  /-- A text from outside. -/
  | custom (text : Text)
  /-- The pattern could not be read. -/
  | badPattern (error : PatternError)
  /-- The selections could not be changed. -/
  | badSelection (error : SelectionError)
  /-- The session could not be closed. -/
  | notClosed (error : CloseError)
  /-- A file was opened or saved, or was not. -/
  | file (report : FileReport)
  /-- The lines of a file could not be read. -/
  | unreadable (error : FileError)
  /-- So many matches have been selected. -/
  | selected (count : Nat)
  /-- So many selections have been copied. -/
  | yanked (count : Nat)
  /-- There is nothing to paste. -/
  | registerEmpty
  /-- A paste would add too many bytes. -/
  | pasteTooLarge
  /-- The key is no hexadecimal digit. -/
  | notAHexDigit
  /-- There is no change to undo. -/
  | nothingToUndo
  /-- There is no undone change. -/
  | nothingToRedo
  /-- The main selection covers so many bytes. -/
  | measured (bytes : Nat)
  /-- Another session has become the current one. -/
  | nowEditing (path : Option Text)
  /-- No command has this name. -/
  | unknownCommand (name : Text)
  /-- The command to open a file needs a path. -/
  | editNeedsPath
  /-- The rows have a new width. -/
  | width (bytes : Nat)
  /-- The width could not be set. -/
  | badWidth (error : WidthError)
  /-- A display option has been set. -/
  | switched (switch : Switch) (on : Bool)
  /-- The value of a display option could not be read. -/
  | badSwitch (switch : Switch)
deriving DecidableEq

namespace Notice

/-- The name that is shown for a session without a path. -/
def scratchName : Text := ascii "[scratch]"

/-- The line that is shown. -/
def message : Notice → Text
  | blank => []
  | custom text => text
  | badPattern error => error.message
  | badSelection error => error.message
  | notClosed error => error.message
  | file report => report.message
  | unreadable error => error.message
  | selected count => Text.decimal count ++ ascii " selection(s)"
  | yanked count => ascii "yanked " ++ Text.decimal count ++ ascii " selection(s)"
  | registerEmpty => ascii "register is empty"
  | pasteTooLarge => ascii "paste too large, lower the count"
  | notAHexDigit => ascii "not a hex digit"
  | nothingToUndo => ascii "nothing left to undo"
  | nothingToRedo => ascii "nothing left to redo"
  | measured bytes =>
    Text.decimal bytes ++ ascii " = 0x" ++ Text.hexadecimal bytes ++ ascii " bytes"
  | nowEditing path => ascii "now editing " ++ path.getD scratchName
  | unknownCommand name => ascii "unknown command: " ++ name
  | editNeedsPath => ascii "edit: use :e <path>"
  | width bytes => ascii "width=" ++ Text.decimal bytes
  | badWidth error => error.message
  | switched switch on => switch.name ++ (if on then ascii " on" else ascii " off")
  | badSwitch switch =>
    ascii "set " ++ switch.name ++ ascii ": use :set " ++ switch.name ++ ascii " on|off"

/-- Does the notice report that a command has failed? -/
def isFailure : Notice → Bool
  | badPattern _ | badSelection _ | notClosed _ | unreadable _ | registerEmpty | pasteTooLarge
  | notAHexDigit | nothingToUndo | nothingToRedo | unknownCommand _ | editNeedsPath | badWidth _
  | badSwitch _ => true
  | file report => report.isFailure
  | _ => false

end Notice

end HexEditor
