import HexEditor.Text

/-!
# The character grid

The screen is a grid of cells.  Drawing outside the grid has no effect, so a
caller may start a text to the left of the grid or let it run out on the right.

Main definitions:

- `Cell` is a byte drawn in an ink.
- `Grid` with `blank`, `clear`, `put`, `clearToEnd`, `moveCursor` and `refresh`.
-/

namespace HexEditor

/-- The number of a pair of colours. -/
abbrev Ink := Nat

namespace Ink

/-- Text without a highlight. -/
def plain : Ink := 0

/-- Bytes of a selection. -/
def selection : Ink := 1

/-- Bytes of the main selection. -/
def mainSelection : Ink := 2

/-- The byte under a cursor. -/
def cursor : Ink := 3

/-- The status line. -/
def status : Ink := 4

end Ink

/-- A byte drawn in an ink. -/
structure Cell where
  /-- What is drawn. -/
  byte : UInt8
  /-- How it is drawn. -/
  ink : Ink
deriving DecidableEq

/-- A cell with nothing drawn in it. -/
def Cell.blank : Cell := ⟨32, .plain⟩

/-- A grid of cells with a cursor. -/
structure Grid where
  /-- How many rows the grid has. -/
  rows : Nat
  /-- How many cells a row has. -/
  cols : Nat
  /-- The rows from the top, each from the left. -/
  cells : List (List Cell)
  /-- The row and the column of the cursor, which may lie outside the grid. -/
  cursor : Int × Int
  /-- How often the drawing has been shown. -/
  refreshes : Nat
deriving DecidableEq

namespace Grid

/-- Rows of blank cells. -/
def blankCells (rows cols : Nat) : List (List Cell) :=
  List.replicate rows (List.replicate cols .blank)

/-- A blank grid. -/
def blank (rows cols : Nat) : Grid := ⟨rows, cols, blankCells rows cols, (0, 0), 0⟩

/-- Wipe all cells; the cursor stays. -/
def clear (g : Grid) : Grid := { g with cells := blankCells g.rows g.cols }

/-- Change the cells of one row, each by its column. -/
def modifyRow (g : Grid) (row : Int) (f : Nat → Cell → Cell) : Grid :=
  if 0 ≤ row then { g with cells := g.cells.modify row.toNat fun line => line.mapIdx f }
  else g

/-- The cell at a column after a text has been drawn from another column on. -/
def covered (start : Int) (text : Text) (ink : Ink) (col : Nat) (cell : Cell) : Cell :=
  if start ≤ col then
    match text[((col : Int) - start).toNat]? with
    | some byte => ⟨byte, ink⟩
    | none => cell
  else cell

/-- Draw a text in a row, from a column on. -/
def put (g : Grid) (row col : Int) (text : Text) (ink : Ink) : Grid :=
  g.modifyRow row (covered col text ink)

/-- Wipe the cells of a row from a column on. -/
def clearToEnd (g : Grid) (row col : Int) : Grid :=
  g.modifyRow row fun c cell => if col ≤ c then .blank else cell

/-- Put the cursor somewhere. -/
def moveCursor (g : Grid) (row col : Int) : Grid := { g with cursor := (row, col) }

/-- Show what has been drawn. -/
def refresh (g : Grid) : Grid := { g with refreshes := g.refreshes + 1 }

end Grid

end HexEditor
