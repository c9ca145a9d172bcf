import HexEditor.Screen.Grid
import Mathlib.Data.List.Induction
import Mathlib.Tactic.Common

/-!
# Painting rows of the grid

A text that is drawn in a row changes the cells of this row that it reaches, and no others.  What a
row shows after several texts have been drawn in it is said cell by cell: a cell shows the last text
that reaches it.  If all texts that reach it want the same, their order does not matter.

Drawing changes nothing but cells: the size of the grid stays, and so does what the grid remembers
besides its cells, its cursor and how often it has been shown.

Main results:

- Definitions `Grid.cellAt` and `Grid.Stroke`: a cell of the grid, and a text with its place in a
  row.
- Theorem `Grid.cellAt_paint`: what strokes in a row leave of a cell.
- Theorems `Grid.Stroke.after_eq_self` and `Grid.Stroke.after_eq_of_mem`: cells that no stroke
  reaches, and cells for which all strokes that reach them agree.
- Theorem `Grid.paint_marked`: strokes do not touch the cursor or the number of times that the grid
  has been shown.
-/

namespace HexEditor

namespace Grid

/-! ## Cells -/

/-- The cell in a row and a column, if they lie in the grid. -/
def cellAt (g : Grid) (row col : Nat) : Option Cell :=
  g.cells[row]?.bind (·[col]?)

theorem cellAt_clear (g : Grid) {row col : Nat} (hrow : row < g.rows) (hcol : col < g.cols) :
    g.clear.cellAt row col = some .blank := by
  simp [cellAt, clear, blankCells, hrow, hcol]

theorem cellAt_modifyRow (g : Grid) (line : Int) (f : Nat → Cell → Cell) (row col : Nat) :
    (g.modifyRow line f).cellAt row col =
      (g.cellAt row col).map fun cell => if line = row then f col cell else cell := by
  by_cases hline : line = row
  · have hpos : 0 ≤ line := by omega
    have hindex : line.toNat = row := by omega
    simp only [modifyRow, if_pos hpos, cellAt, hindex, if_pos hline, List.getElem?_modify_eq]
    cases g.cells[row]? with
    | none => rfl
    | some cells => simp
  · simp only [if_neg hline, Option.map_id']
    unfold modifyRow
    split_ifs with hpos
    · have hindex : line.toNat ≠ row := by omega
      simp only [cellAt, List.getElem?_modify_ne _ _ hindex]
    · rfl

/-! ## Strokes -/

/-- A text that is drawn from a column on. -/
structure Stroke where
  /-- The column of the first byte. -/
  col : Int
  /-- What is drawn. -/
  text : Text
  /-- How it is drawn. -/
  ink : Ink

/-- Draw strokes in a row, one after the other. -/
def paint (g : Grid) (row : Int) (strokes : List Stroke) : Grid :=
  strokes.foldl (fun g k => g.put row k.col k.text k.ink) g

theorem paint_append (g : Grid) (row : Int) (front back : List Stroke) :
    g.paint row (front ++ back) = (g.paint row front).paint row back :=
  List.foldl_append

namespace Stroke

/-- What the stroke wants to have in a column, if it reaches the column. -/
def cell? (k : Stroke) (col : Nat) : Option Cell :=
  if k.col ≤ col then k.text[((col : Int) - k.col).toNat]?.map (⟨·, k.ink⟩) else none

/-- What strokes leave of the cell in a column. -/
def after (strokes : List Stroke) (col : Nat) (cell : Cell) : Cell :=
  strokes.foldl (fun cell k => (k.cell? col).getD cell) cell

variable {k : Stroke} {strokes : List Stroke} {col : Nat} {cell : Cell}

theorem covered_eq (k : Stroke) (col : Nat) (cell : Cell) :
    covered k.col k.text k.ink col cell = (k.cell? col).getD cell := by
  unfold covered cell?
  split_ifs
  · cases k.text[((col : Int) - k.col).toNat]? <;> rfl
  · rfl

/-- A stroke reaches as many columns as its text has bytes. -/
theorem bounds_of_cell?_eq_some (h : k.cell? col = some cell) :
    k.col ≤ col ∧ col < k.col + k.text.length := by
  unfold cell? at h
  split_ifs at h with hcol
  rcases Option.map_eq_some_iff.1 h with ⟨byte, hbyte, -⟩
  have hin := (List.getElem?_eq_some_iff.1 hbyte).1
  omega

theorem after_append (front back : List Stroke) (col : Nat) (cell : Cell) :
    after (front ++ back) col cell = after back col (after front col cell) :=
  List.foldl_append

/-- Strokes that do not reach a cell leave it as it is. -/
theorem after_eq_self (h : ∀ k ∈ strokes, k.cell? col = none) : after strokes col cell = cell := by
  induction strokes with
  | nil => rfl
  | cons k strokes ih =>
      rw [after, List.foldl_cons, h k List.mem_cons_self, Option.getD_none]
      exact ih fun l hl => h l (List.mem_cons_of_mem _ hl)

/-- If all strokes that reach a cell want the same and one of them does reach it, the cell shows
what they want. -/
theorem after_eq_of_mem {wanted : Cell} (hk : k ∈ strokes) (hreach : k.cell? col = some wanted)
    (hsame : ∀ l ∈ strokes, ∀ other, l.cell? col = some other → other = wanted) :
    after strokes col cell = wanted := by
  induction strokes using List.reverseRecOn with
  | nil => cases hk
  | append_singleton strokes l ih =>
      rw [after_append]
      change (l.cell? col).getD (after strokes col cell) = wanted
      cases hlast : l.cell? col with
      | some other => exact hsame l (List.mem_append_right _ List.mem_cons_self) other hlast
      | none =>
          rcases List.mem_append.1 hk with hk | hk
          · exact ih hk fun m hm => hsame m (List.mem_append_left _ hm)
          · rw [List.mem_singleton.1 hk, hlast] at hreach
            cases hreach

end Stroke

/-- Strokes change the cells of their row. -/
theorem cellAt_paint (g : Grid) (line : Int) (strokes : List Stroke) (row col : Nat) :
    (g.paint line strokes).cellAt row col =
      (g.cellAt row col).map fun cell =>
        if line = row then Stroke.after strokes col cell else cell := by
  induction strokes generalizing g with
  | nil => simp [paint, Stroke.after]
  | cons k strokes ih =>
      rw [paint, List.foldl_cons]
      change ((g.put line k.col k.text k.ink).paint line strokes).cellAt row col = _
      rw [ih, put, cellAt_modifyRow, Option.map_map]
      congr 1
      funext cell
      simp only [Function.comp_apply]
      split_ifs
      · rw [Stroke.covered_eq]
        rfl
      · rfl

/-! ## What drawing keeps -/

/-- The grid with another cursor, shown another number of times. -/
def marked (g : Grid) (cursor : Int × Int) (refreshes : Nat) : Grid :=
  { g with cursor, refreshes }

variable {g : Grid} {row : Int} {cursor : Int × Int} {refreshes : Nat}

@[simp]
theorem rows_modifyRow (f : Nat → Cell → Cell) : (g.modifyRow row f).rows = g.rows := by
  unfold modifyRow
  split_ifs <;> rfl

@[simp]
theorem cols_modifyRow (f : Nat → Cell → Cell) : (g.modifyRow row f).cols = g.cols := by
  unfold modifyRow
  split_ifs <;> rfl

theorem modifyRow_marked (f : Nat → Cell → Cell) :
    (g.marked cursor refreshes).modifyRow row f = (g.modifyRow row f).marked cursor refreshes := by
  unfold modifyRow
  split_ifs <;> rfl

@[simp]
theorem rows_paint (strokes : List Stroke) : (g.paint row strokes).rows = g.rows := by
  induction strokes generalizing g with
  | nil => rfl
  | cons k strokes ih => exact (ih (g := g.put row k.col k.text k.ink)).trans (rows_modifyRow _)

@[simp]
theorem cols_paint (strokes : List Stroke) : (g.paint row strokes).cols = g.cols := by
  induction strokes generalizing g with
  | nil => rfl
  | cons k strokes ih => exact (ih (g := g.put row k.col k.text k.ink)).trans (cols_modifyRow _)

theorem paint_marked (strokes : List Stroke) :
    (g.marked cursor refreshes).paint row strokes =
      (g.paint row strokes).marked cursor refreshes := by
  induction strokes generalizing g with
  | nil => rfl
  | cons k strokes ih =>
      have hput : (g.marked cursor refreshes).put row k.col k.text k.ink =
          (g.put row k.col k.text k.ink).marked cursor refreshes := modifyRow_marked _
      rw [paint, List.foldl_cons, hput]
      exact ih (g := g.put row k.col k.text k.ink)

end Grid

end HexEditor
