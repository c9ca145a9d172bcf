import HexEditor.Editor.State
import HexEditor.Screen.Grid
import HexEditor.Screen.Status

/-!
# The view of a file

A file is shown in rows of a fixed number of bytes: the offset of the row, the
bytes in hexadecimal, and the same bytes as characters.  The selections are
coloured, and the rows are chosen so that the main cursor is among them.  The
offset behind the last byte has a cell of its own, which is drawn only when it is
selected.

Main definitions:

- `ViewOptions.hexColumn` and `asciiColumn` are the columns of a byte.
- `scrolled` moves the first row as little as the main cursor requires.
- `inkAt` is the colour of an offset, from the selections that have not been
  passed.
- `Grid.render` draws a session.
-/

namespace HexEditor

/-! ## Columns -/

/-- Columns are words of 32 bits with a sign. -/
def columnOf (n : Int) : Int := n.bmod 0x100000000

namespace ViewOptions

/-- The width of the column of offsets. -/
def offsetWidth (view : ViewOptions) : Int := if view.showOffsets then 10 else 0

/-- The column of the digits of a byte, given its index in the row. -/
def hexColumn (view : ViewOptions) (index : Nat) : Int :=
  columnOf (view.offsetWidth + columnOf index * 3)

/-- The column of the character of a byte, given its index in the row. -/
def asciiColumn (view : ViewOptions) (index : Nat) : Int :=
  columnOf (view.hexColumn view.width + 1 + columnOf index)

/-- How many bytes a row has, one at least. -/
def rowLength (view : ViewOptions) : Nat := max view.width 1

end ViewOptions

/-! ## Scrolling -/

/-- How many rows of a grid show the file. -/
def textRows (rows : Nat) : Nat := max 1 (rows - 1)

/-- The first row that is shown, when `shown` rows are and one of them must be
`row`. -/
def scrolled (top row shown : Nat) : Nat :=
  let top := if row < top then row else top
  if wrap (top + shown) ≤ row then row - shown + 1 else top

/-! ## Colours -/

/-- A selection with its index. -/
abbrev Indexed := Selection × Nat

/-- Pass the selections that end before an offset. -/
def passed (offset : Nat) (selections : List Indexed) : List Indexed :=
  selections.dropWhile fun s => s.1.last < offset

/-- The colour of an offset, given the selections that do not end before it. -/
def inkAt (main offset : Nat) : List Indexed → Ink
  | [] => .plain
  | (s, index) :: _ =>
    if s.first ≤ offset then
      if s.cursor = offset then .cursor
      else if index = main then .mainSelection
      else .selection
    else .plain

/-- Is the main cursor at an offset, given the selections that do not end before
it? -/
def isMainCursor (main offset : Nat) : List Indexed → Bool
  | [] => false
  | (s, index) :: _ => s.first ≤ offset && index == main && s.cursor == offset

/-! ## Drawing -/

/-- The label of the row that begins at an offset.  There is room for 15 bytes. -/
def rowLabel (start : Nat) : Text :=
  (Text.hexadecimalPadded 8 start ++ ascii ": ").take 15

/-- The character that is drawn for a byte. -/
def shownByte (byte : UInt8) : UInt8 := if Text.isPrintable byte then byte else 46

/-- A drawing with the place of the main cursor, once it has been met. -/
structure Drawing where
  /-- The grid. -/
  grid : Grid
  /-- The row and the column of the main cursor. -/
  cursor : Option (Int × Int)

/-- Remember the place of the main cursor if it is at the offset. -/
def Drawing.meet (d : Drawing) (isCursor : Bool) (row col : Int) : Drawing :=
  if isCursor then { d with cursor := some (row, col) } else d

/-- Draw the bytes of a row from the given index on, and the cell behind the last
byte if the row has room for it. -/
def Drawing.cells (view : ViewOptions) (main row : Nat) (d : Drawing)
    (selections : List Indexed) (offset index : Nat) : Bytes → Drawing
  | [] =>
    if index < view.rowLength then
      let selections := passed offset selections
      let ink := inkAt main offset selections
      let col := view.hexColumn index
      let d := d.meet (isMainCursor main offset selections) row col
      if ink = .plain then d else { d with grid := d.grid.put row col (ascii "  ") ink }
    else d
  | byte :: bytes =>
    let selections := passed offset selections
    let ink := inkAt main offset selections
    let col := view.hexColumn index
    let d := d.meet (isMainCursor main offset selections) row col
    let grid := d.grid.put row col (Text.byteDigits byte) ink
    let grid :=
      if view.showAscii then grid.put row (view.asciiColumn index) [shownByte byte] ink
      else grid
    Drawing.cells view main row { d with grid } selections (offset + 1) (index + 1) bytes

/-- Draw the row that begins at an offset. -/
def Drawing.row (view : ViewOptions) (s : Session) (row start : Nat) (d : Drawing) : Drawing :=
  let grid := if view.showOffsets then d.grid.put row 0 (rowLabel start) .plain else d.grid
  let bytes := s.buffer.read ⟨start, min (start + view.rowLength) s.buffer.length⟩
  let selections := passed start s.selections.selections.zipIdx
  Drawing.cells view s.selections.main row { d with grid } selections start 0 bytes

/-- Draw the given number of rows, as far as the file goes; the place behind its
last byte belongs to it. -/
def Drawing.rows (view : ViewOptions) (s : Session) (top : Nat) (d : Drawing) :
    (count row : Nat) → Drawing
  | 0, _ => d
  | count + 1, row =>
    let start := (top + row) * view.rowLength
    if s.buffer.length < start then d
    else Drawing.rows view s top (d.row view s row start) count (row + 1)

/-- Draw the last row. -/
def Grid.putStatus (g : Grid) (s : Session) (status : Status) (cursor : Option (Int × Int)) :
    Grid :=
  let row : Int := (g.rows : Int) - 1
  match status.prompt with
  | some (prompt, column) =>
    let g := (g.put row 0 prompt .plain).clearToEnd row (columnOf prompt.length)
    g.moveCursor row (min (columnOf column) (max 0 ((g.cols : Int) - 1)))
  | none =>
    let line := status.line s
    let padded := line ++ List.replicate (g.cols - line.length) 32
    let g := g.put row 0 (padded.take g.cols) .status
    match cursor with
    | some (row, col) => g.moveCursor row col
    | none => g.moveCursor row 0

/-- Draw a session.  The answer is the drawing and the first row that it shows,
which is the given one unless the main cursor would be out of sight. -/
def Grid.render (g : Grid) (s : Session) (top : Nat) (view : ViewOptions) (status : Status) :
    Grid × Nat :=
  let shown := textRows g.rows
  let top := scrolled top (s.selections.mainSelection.cursor / view.rowLength) shown
  let drawing := Drawing.rows view s top ⟨g.clear, none⟩ shown 0
  ((drawing.grid.putStatus s status drawing.cursor).refresh, top)

end HexEditor
