import HexEditor.Session.Basic

/-!
# The status line

The last row of the screen tells the mode, the file, the place of the cursor, the
number of selections and the last notice.  While a prompt is edited it takes the
place of all that.
-/

namespace HexEditor

/-- What the last row of the screen shows besides the session. -/
structure Status where
  /-- The name of the mode. -/
  mode : Text
  /-- The last notice; nothing is shown for an empty one. -/
  message : Text
  /-- The prompt that is edited, with the column of its cursor. -/
  prompt : Option (Text × Nat)
  /-- The index of the session. -/
  index : Nat
  /-- How many sessions are open. -/
  count : Nat

namespace Status

/-- Two blanks, which separate the parts of the line. -/
def gap : Text := ascii "  "

/-- The place of the session among several. -/
def place (status : Status) : Text :=
  if 1 < status.count then
    gap ++ ascii "(" ++ Text.decimal (wrap (status.index + 1)) ++ ascii "/" ++
      Text.decimal status.count ++ ascii ")"
  else []

/-- The status line of a session. -/
def line (status : Status) (s : Session) : Text :=
  status.mode ++ gap ++ s.path.getD (ascii "[scratch]") ++
    (if s.isDirty then ascii " [+]" else []) ++ status.place ++ gap ++
    ascii "0x" ++ Text.hexadecimalPadded 8 s.selections.mainSelection.cursor ++ gap ++
    Text.decimal s.selections.size ++ ascii " sel" ++
    (if status.message.isEmpty then [] else gap ++ ascii "| " ++ status.message)

end Status

end HexEditor
