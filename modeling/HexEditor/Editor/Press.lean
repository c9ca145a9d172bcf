import HexEditor.Editor.Commands
import HexEditor.Selection.Split

/-!
# Key presses

A key press takes the editor from one state to the next.  Each mode gives the
keys a meaning of its own.

Main definitions:

- `Editor.press` handles one key.
- `Editor.pressNormal`, `pressJump`, `pressSplit`, `pressInsert`, `pressReplace`,
  `pressPattern` and `pressCommand` handle a key in one of the modes.
-/

namespace HexEditor

/-- The code of an ASCII character. -/
def code (c : Char) : Int := c.toNat

/-- The value of a hexadecimal digit of either case. -/
def hexDigitOfCode? (key : Int) : Option Nat :=
  if 0 ≤ key ∧ key < 256 then Text.hexDigit? key.toNat.toUInt8 else none

namespace Editor

/-! ## Movement -/

/-- The displacement of one step of a movement key, and whether the movement
extends the selections.  Letters move only where they are not text. -/
def movement? (width : Nat) (letters : Bool) (key : Key) : Option (Int × Bool) :=
  match key with
  | .left => some (-1, false)
  | .right => some (1, false)
  | .up => some (-(width : Int), false)
  | .down => some (width, false)
  | key =>
    if letters then key.plain?.bind letterMovement? else none
where
  /-- The movement that a letter stands for; capitals extend. -/
  letterMovement? (c : Int) : Option (Int × Bool) :=
    if c = code 'h' then some (-1, false)
    else if c = code 'l' then some (1, false)
    else if c = code 'k' then some (-(width : Int), false)
    else if c = code 'j' then some (width, false)
    else if c = code 'H' then some (-1, true)
    else if c = code 'L' then some (1, true)
    else if c = code 'K' then some (-(width : Int), true)
    else if c = code 'J' then some (width, true)
    else none

/-- Move the selections if the key is a movement key.  No movement goes further
than the file is long, so a larger count is cut down first. -/
def move? (ed : Editor) (s : Session) (key : Key) (count : Nat) (letters : Bool) :
    Option Editor :=
  (movement? ed.view.width letters key).map fun (unit, extend) =>
    let length := s.buffer.length
    ed.select (s.selections.moveBy (unit * min count (length + 1)) extend length)

/-! ## Editing -/

/-- Open a group of changes and begin to insert. -/
def beginInsert (ed : Editor) (encoding : Encoding) (side : Side) : Editor :=
  (ed.modifySession Session.beginGroup).enter (.insert encoding side none)

/-- Open a group of changes and begin to replace. -/
def beginReplace (ed : Editor) (encoding : Encoding) : Editor :=
  (ed.modifySession Session.beginGroup).enter (.replace encoding none)

/-- Close the group of changes and go back to commands. -/
def endEditing (ed : Editor) : Editor :=
  (ed.modifySession Session.commitGroup).enter .normal

/-- Copy the selections and delete them. -/
def cut (ed : Editor) (s : Session) : Except Fault Editor := do
  let ed ← ed.copy s
  ed.edit s (s.buffer.delete s.selections)

/-- Paste the default register. -/
def paste (ed : Editor) (s : Session) (side : Side) (count : Nat) : Except Fault Editor :=
  let entries := ed.registers.read Registers.defaultName
  if entries.isEmpty then .ok (ed.tell .registerEmpty)
  else if (pasteSize? s.selections entries count).isNone then .ok (ed.tell .pasteTooLarge)
  else ed.edit s (s.buffer.paste s.selections entries side count)

/-! ## Commands -/

/-- Undo or redo, or tell that there is nothing left. -/
def backOrForth (ed : Editor) (s : Option Session) (otherwise : Notice) : Editor :=
  match s with
  | some s => ed.modifySession fun _ => s
  | none => ed.tell otherwise

/-- Handle a command character.  `typed` says whether the count was typed; when
it was not, it is one. -/
def command (ed : Editor) (s : Session) (c : Int) (count : Nat) (typed : Bool) :
    Except Fault Editor :=
  let length := s.buffer.length
  if c = code 'g' ∨ c = code 'G' then
    let extend := c == code 'G'
    .ok (if typed then ed.select (s.selections.jumpTo count extend length)
      else ed.enter (.jump extend))
  else if c = code ';' then .ok (ed.select s.selections.collapse)
  else if c = code '%' then .ok (ed.select (.all length))
  else if c = code ' ' then
    .ok (ed.select (s.selections.keep (if typed then count - 1 else s.selections.main)))
  else if c = code '(' then .ok (ed.select (s.selections.cycleBackward count))
  else if c = code ')' then .ok (ed.select (s.selections.cycleForward count))
  else if c = code 's' then .ok (ed.enter (.pattern .ascii .selectInSelections .empty))
  else if c = code 'S' then .ok (ed.enter (.pattern .hex .selectInSelections .empty))
  else if c = code '/' then .ok (ed.enter (.pattern .ascii .selectInBuffer .empty))
  else if c = code '?' then .ok (ed.enter (.pattern .hex .selectInBuffer .empty))
  else if c = code 'd' then ed.cut s
  else if c = code 'y' then do
    let ed ← ed.copy s
    return ed.tell (.yanked s.selections.size)
  else if c = code 'c' then ((ed.beginInsert .ascii .before).cut s.beginGroup)
  else if c = code 'C' then ((ed.beginInsert .hex .before).cut s.beginGroup)
  else if c = code 'p' then ed.paste s .after count
  else if c = code 'P' then ed.paste s .before count
  else if c = code 'i' then .ok (ed.beginInsert .ascii .before)
  else if c = code 'I' then .ok (ed.beginInsert .hex .before)
  else if c = code 'a' then .ok (ed.beginInsert .ascii .after)
  else if c = code 'A' then .ok (ed.beginInsert .hex .after)
  else if c = code 'r' then .ok (ed.beginReplace .ascii)
  else if c = code 'R' then .ok (ed.beginReplace .hex)
  else if c = code 'M' then
    .ok (ed.tell (.measured (s.selections.mainSelection.covered length).size))
  else if c = code 'u' then .ok (ed.backOrForth (s.undo? (max count 1)) .nothingToUndo)
  else if c = code 'U' then .ok (ed.backOrForth (s.redo? (max count 1)) .nothingToRedo)
  else if c = code ':' then .ok (ed.enter (.command .empty))
  else .ok ed

/-- The count after a key that belongs to it: a digit, the toggle of its base, or
the removal of its last digit. -/
def countKey? (count : Count) (key : Key) : Option Count :=
  match key with
  | .backspace => count.backspace?
  | key => key.plain?.bind fun c =>
    match count.digit? c with
    | some count => some count
    | none => if c = code 'x' then some count.toggleHex else none

/-- Handle a key when keys are commands. -/
def pressNormal (ed : Editor) (s : Session) (key : Key) : Except Fault Editor :=
  if key = .escape then .ok { ed with count := .empty }
  else
    match countKey? ed.count key with
    | some count => .ok { ed with count }
    | none =>
      if key.isAlt (code 's') then .ok (ed.enter .split)
      else
        let typed := ed.count.typed
        let count := ed.count.valueOr 1
        let ed := { ed with count := .empty, notice := .blank }
        match ed.move? s key count true with
        | some ed => .ok ed
        | none =>
          if key.isAlt (code ';') then .ok (ed.select s.selections.swapEnds)
          else if key.isAlt (code ' ') then
            .ok (ed.selectOrTell
              (s.selections.drop? (if typed then count - 1 else s.selections.main)))
          else
            match key.plain? with
            | none => .ok ed
            | some c => ed.command s c count typed

/-- Handle the key that names the target of a jump. -/
def pressJump (ed : Editor) (s : Session) (extend : Bool) (key : Key) : Editor :=
  let ed := ed.enter .normal
  let length := s.buffer.length
  let width := ed.view.width
  match key.plain? with
  | none => ed
  | some c =>
    if c = code 'h' then ed.select (s.selections.moveCursors (rowStart · width) extend length)
    else if c = code 'l' then
      ed.select (s.selections.moveCursors (rowEnd · width length) extend length)
    else if c = code 'k' then ed.select (s.selections.jumpTo 0 extend length)
    else if c = code 'j' then ed.select (s.selections.jumpTo (length - 1) extend length)
    else ed

/-- The width of the pieces that a letter asks for. -/
def pieceWidth? (c : Int) : Option Nat :=
  if c = code 'b' then some 1
  else if c = code 'w' then some 2
  else if c = code 'd' then some 4
  else if c = code 'q' then some 8
  else if c = code 'o' then some 16
  else none

/-- Handle a key that says how to split.  A count beyond the length of the file
would change nothing more, so it is cut down first. -/
def pressSplit (ed : Editor) (s : Session) (key : Key) : Editor :=
  if key = .escape then { ed with count := .empty }.enter .normal
  else
    match countKey? ed.count key with
    | some count => { ed with count }
    | none =>
      let count := min (max (ed.count.valueOr 1) 1) (s.buffer.length + 1)
      let ed := { ed with count := .empty }.enter .normal
      match key.plain? with
      | none => ed
      | some c =>
        match pieceWidth? c with
        | some width => ed.select (s.selections.splitWidth (width * count))
        | none =>
          if c = code 'n' then ed.selectOrTell (s.selections.splitNull? count s.buffer)
          else if c = code '/' then ed.enter (.pattern .ascii .split .empty)
          else if c = code '?' then ed.enter (.pattern .hex .split .empty)
          else ed

/-! ## Inserting and replacing -/

/-- Insert one byte at every selection. -/
def insertByte (ed : Editor) (s : Session) (side : Side) (byte : UInt8) : Except Fault Editor :=
  ed.edit s (s.buffer.insert s.selections [byte] side)

/-- Replace every byte below the selections. -/
def overwriteWith (ed : Editor) (s : Session) (byte : UInt8) : Except Fault Editor :=
  ed.edit s (s.buffer.overwrite s.selections byte)

/-- The byte whose first digit waits in the upper half. -/
def completeByte (half : UInt8) (digit : Nat) : UInt8 := half ||| digit.toUInt8

/-- The upper half of a byte that begins with the digit. -/
def upperHalf (digit : Nat) : UInt8 := (16 * digit).toUInt8

/-- Handle a key while inserting. -/
def pressInsert (ed : Editor) (s : Session) (encoding : Encoding) (side : Side)
    (half : Option UInt8) (key : Key) : Except Fault Editor :=
  match key with
  | .escape => .ok ed.endEditing
  | .backspace =>
    if half.isSome then .ok (ed.enter (.insert encoding side none))
    else ed.edit s (s.buffer.eraseBefore s.selections side)
  | .delete => ed.edit s (s.buffer.eraseAt s.selections side)
  | .enter => if encoding = .ascii then ed.insertByte s side 10 else .ok ed
  | .tab => if encoding = .ascii then ed.insertByte s side 9 else .ok ed
  | .unknown => .ok ed
  | .char c ctrl alt =>
    if ctrl ∧ c = code 'o' then .ok (ed.enter (.insert encoding.toggle side none))
    else if ctrl ∧ c = code 'n' then (ed.enter (.insert encoding side none)).insertByte s side 0
    else if ctrl ∨ alt then .ok ed
    else if encoding = .ascii then ed.insertByte s side (Prompt.edit?.byteOfCode c)
    else
      match hexDigitOfCode? c, half with
      | none, _ => .ok (ed.tell .notAHexDigit)
      | some digit, none => .ok (ed.enter (.insert encoding side (some (upperHalf digit))))
      | some digit, some half =>
        (ed.enter (.insert encoding side none)).insertByte s side (completeByte half digit)
  | key =>
    let ed := ed.enter (.insert encoding side none)
    .ok ((ed.move? s key 1 false).getD ed)

/-- Handle a key while replacing.  A digit that waits pins the selections, and
any key without a meaning ends the mode. -/
def pressReplace (ed : Editor) (s : Session) (encoding : Encoding) (half : Option UInt8)
    (key : Key) : Except Fault Editor :=
  match key with
  | .char c ctrl alt =>
    if ctrl ∧ c = code 'n' then (ed.overwriteWith s 0).map endEditing
    else if ctrl ∧ c = code 'o' then .ok (ed.enter (.replace encoding.toggle none))
    else if ctrl ∨ alt then .ok ed.endEditing
    else if encoding = .ascii then ed.overwriteWith s (Prompt.edit?.byteOfCode c)
    else
      match hexDigitOfCode? c, half with
      | none, _ => .ok ed.endEditing
      | some digit, none => .ok (ed.enter (.replace encoding (some (upperHalf digit))))
      | some digit, some half =>
        (ed.enter (.replace encoding none)).overwriteWith s (completeByte half digit)
  | .left | .right | .up | .down =>
    .ok (if half.isSome then ed else (ed.move? s key 1 false).getD ed)
  | _ => .ok ed.endEditing

/-! ## Prompts -/

/-- Use a pattern that has been entered. -/
def runPattern (ed : Editor) (s : Session) (purpose : Purpose) (pattern : Pattern) : Editor :=
  let length := s.buffer.length
  let found :=
    match purpose with
    | .selectInSelections =>
      s.selections.selectMatching? pattern s.buffer (s.selections.coveredRanges length)
    | .selectInBuffer => s.selections.selectMatching? pattern s.buffer [⟨0, length⟩]
    | .split => s.selections.splitPattern? pattern s.buffer
  match found with
  | .error e => ed.tell (.badSelection e)
  | .ok selections => (ed.tell (.selected selections.size)).select selections

/-- Handle a key while a pattern is entered. -/
def pressPattern (ed : Editor) (s : Session) (encoding : Encoding) (purpose : Purpose)
    (prompt : Prompt) (key : Key) : Editor :=
  if key = .escape then ed.enter .normal
  else if key = .enter then
    match Pattern.parse encoding prompt.text with
    | .error e => ed.tell (.badPattern e)
    | .ok pattern =>
      let ed := ed.enter .normal
      if pattern.isEmpty then ed else ed.runPattern s purpose pattern
  else if key.isCtrl (code 'w') then
    let wildcard := Pattern.render encoding [.wildcard]
    ed.enter (.pattern encoding purpose (prompt.insert wildcard))
  else if key.isCtrl (code 'n') then
    let zero := Pattern.render encoding [.literal 0]
    ed.enter (.pattern encoding purpose (prompt.insert zero))
  else if key.isCtrl (code 'o') then
    match Pattern.parse encoding prompt.text with
    | .error e => ed.tell (.badPattern e)
    | .ok pattern =>
      let text := Pattern.render encoding.toggle pattern
      ed.enter (.pattern encoding.toggle purpose ⟨text, text.length⟩)
  else
    match prompt.edit? key with
    | none => ed
    | some prompt => ed.enter (.pattern encoding purpose prompt)

/-- Handle a key while a command line is entered. -/
def pressCommand (ed : Editor) (prompt : Prompt) (key : Key) : Except Fault Editor :=
  if key = .escape then .ok (ed.enter .normal)
  else if key = .enter then (ed.enter .normal).execute prompt.text
  else if key = .backspace ∧ prompt.text = [] then .ok (ed.enter .normal)
  else
    match prompt.edit? key with
    | none => .ok ed
    | some prompt => .ok (ed.enter (.command prompt))

/-! ## All modes -/

/-- Handle one key.  An editor that has come to its end, or that has no session,
does not react. -/
def press (ed : Editor) (key : Key) : Except Fault Editor :=
  if ed.quit then .ok ed
  else
    match ed.workspace.current? with
    | none => .ok ed
    | some s =>
      match ed.mode with
      | .normal => ed.pressNormal s key
      | .jump extend => .ok (ed.pressJump s extend key)
      | .split => .ok (ed.pressSplit s key)
      | .insert encoding side half => ed.pressInsert s encoding side half key
      | .replace encoding half => ed.pressReplace s encoding half key
      | .pattern encoding purpose prompt => .ok (ed.pressPattern s encoding purpose prompt key)
      | .command prompt => ed.pressCommand prompt key

end Editor

end HexEditor
