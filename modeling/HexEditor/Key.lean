/-!
# Keys

A key press as the editor sees it, whatever the keyboard: a character, possibly
with a modifier held, or one of the named keys.
-/

namespace HexEditor

/-- A key press. -/
inductive Key where
  /-- A character code, with the control and the alt key held or not. -/
  | char (code : Int) (ctrl alt : Bool)
  | escape
  | enter
  | tab
  | backspace
  | delete
  | left
  | right
  | up
  | down
  /-- A key without a meaning. -/
  | unknown
deriving DecidableEq

namespace Key

/-- The press of a character without modifiers. -/
def plain (code : Int) : Key := char code false false

/-- The code of a character that was pressed without modifiers. -/
def plain? : Key → Option Int
  | char code false false => some code
  | _ => none

/-- Is this the character with the control key, whatever else is held? -/
def isCtrl (key : Key) (code : Int) : Bool :=
  match key with
  | char c true _ => c == code
  | _ => false

/-- Is this the character with the alt key, whatever else is held? -/
def isAlt (key : Key) (code : Int) : Bool :=
  match key with
  | char c _ true => c == code
  | _ => false

end Key

end HexEditor
