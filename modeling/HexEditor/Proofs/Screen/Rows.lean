import HexEditor.Proofs.Rope.Reading
import HexEditor.Proofs.Screen.Colours
import HexEditor.Proofs.Screen.Painting

/-!
# Drawing rows of a file

A row is drawn by a run over its bytes, which passes selections on the way and remembers the place
of the main cursor when it meets it.  For a valid set of selections this amounts to strokes that
depend on the file and on the rule for colours alone: the label, the digits and the characters of
each byte, and the cell behind the last byte of the file.  The main cursor is met in the row that
holds its offset.

Main results:

- Definition `ViewOptions.rowStrokes`: what is drawn for a row.
- Theorem `Drawing.cells_eq`: the run over the bytes, from any of them on.
- Theorem `Drawing.row_eq`: a row.
- Theorems `Drawing.cellAt_rows` and `Drawing.cursor_rows`: the cells and the place of the main
  cursor after some rows.
- Theorem `Grid.cellAt_putStatus`: the last row, which tells the status, is drawn apart from them.
-/

namespace HexEditor

/-! ## Strokes of a row -/

namespace ViewOptions

/-- What is drawn for a byte, given its index in the row. -/
def byteStrokes (view : ViewOptions) (ink : Ink) (index : Nat) (byte : UInt8) :
    List Grid.Stroke :=
  ⟨view.hexColumn index, Text.byteDigits byte, ink⟩ ::
    if view.showAscii then [⟨view.asciiColumn index, [shownByte byte], ink⟩] else []

/-- What is drawn behind the last byte, given the index of the cell there: nothing if there is no
highlight, or no room in the row. -/
def endStrokes (view : ViewOptions) (ink : Ink) (index : Nat) : List Grid.Stroke :=
  if index < view.rowLength ∧ ink ≠ .plain then [⟨view.hexColumn index, ascii "  ", ink⟩] else []

/-- What is drawn for the bytes of a row from an index on, given the offset at which the row begins
and the colours of offsets. -/
def cellStrokes (view : ViewOptions) (colour : Nat → Ink) (start index : Nat) (bytes : Bytes) :
    List Grid.Stroke :=
  (bytes.zipIdx index).flatMap (fun p => view.byteStrokes (colour (start + p.2)) p.2 p.1) ++
    view.endStrokes (colour (start + (index + bytes.length))) (index + bytes.length)

/-- What is drawn in front of the bytes of a row. -/
def labelStrokes (view : ViewOptions) (start : Nat) : List Grid.Stroke :=
  if view.showOffsets then [⟨0, rowLabel start, .plain⟩] else []

/-- What is drawn for the row of a session that begins at an offset. -/
def rowStrokes (view : ViewOptions) (s : Session) (start : Nat) : List Grid.Stroke :=
  view.labelStrokes start ++ view.cellStrokes s.selections.colour start 0
    ((s.buffer.toBytes.drop start).take view.rowLength)

theorem cellStrokes_cons (view : ViewOptions) (colour : Nat → Ink) (start index : Nat)
    (byte : UInt8) (bytes : Bytes) :
    view.cellStrokes colour start index (byte :: bytes) =
      view.byteStrokes (colour (start + index)) index byte ++
        view.cellStrokes colour start (index + 1) bytes := by
  have hend : index + (bytes.length + 1) = index + 1 + bytes.length := by omega
  rw [cellStrokes, cellStrokes, List.zipIdx_cons, List.flatMap_cons, List.append_assoc,
    List.length_cons, hend]

end ViewOptions

namespace Drawing

variable {view : ViewOptions} {set : SelectionSet} {s : Session}

/-! ## One row -/

theorem meet_eq (d : Drawing) (isCursor : Bool) (row col : Int) :
    d.meet isCursor row col =
      ⟨d.grid, if isCursor = true then some (row, col) else d.cursor⟩ := by
  unfold meet
  split_ifs <;> rfl

theorem paint_byteStrokes (g : Grid) (row : Int) (ink : Ink) (index : Nat) (byte : UInt8) :
    g.paint row (view.byteStrokes ink index byte) =
      if view.showAscii then
        (g.put row (view.hexColumn index) (Text.byteDigits byte) ink).put row
          (view.asciiColumn index) [shownByte byte] ink
      else g.put row (view.hexColumn index) (Text.byteDigits byte) ink := by
  unfold ViewOptions.byteStrokes
  split_ifs <;> rfl

theorem paint_endStrokes (g : Grid) (row : Int) (ink : Ink) {index : Nat}
    (hroom : index < view.rowLength) :
    g.paint row (view.endStrokes ink index) =
      if ink = .plain then g else g.put row (view.hexColumn index) (ascii "  ") ink := by
  unfold ViewOptions.endStrokes
  split_ifs with hdrawn hplain hplain
  · exact absurd hplain hdrawn.2
  · rfl
  · rfl
  · exact absurd ⟨hroom, hplain⟩ hdrawn

/-- The run over the bytes of a row from an index on, when all selections that have been passed end
in front of this byte.  It draws the strokes of the bytes and meets the main cursor if this is in
the part of the row that is left.  The induction is on the bytes. -/
theorem cells_eq {length : Nat} (h : set.Valid length) {row start : Nat} (d : Drawing)
    {offset index : Nat} {bytes : Bytes} (hoffset : offset ≤ start + index)
    (hroom : index + bytes.length ≤ view.rowLength) :
    Drawing.cells view set.main row d (passed offset set.selections.zipIdx) (start + index) index
        bytes =
      ⟨d.grid.paint row (view.cellStrokes set.colour start index bytes),
        if start + index ≤ set.mainSelection.cursor ∧
            set.mainSelection.cursor ≤ start + index + bytes.length ∧
            set.mainSelection.cursor < start + view.rowLength then
          some (row, view.hexColumn (set.mainSelection.cursor - start))
        else d.cursor⟩ := by
  have hpassed := passed_passed hoffset set.selections.zipIdx
  induction bytes generalizing d offset index with
  | nil =>
      have hstrokes : view.cellStrokes set.colour start index [] =
          view.endStrokes (set.colour (start + index)) index := rfl
      simp only [Drawing.cells, hpassed, h.inkAt_passed, h.isMainCursor_passed, meet_eq,
        decide_eq_true_eq]
      rw [hstrokes, List.length_nil, Nat.add_zero]
      by_cases hlast : index < view.rowLength
      · have hmet : (start + index ≤ set.mainSelection.cursor ∧
            set.mainSelection.cursor ≤ start + index ∧
            set.mainSelection.cursor < start + view.rowLength) ↔
              set.mainSelection.cursor = start + index := by
          omega
        rw [if_pos hlast, paint_endStrokes _ _ _ hlast]
        simp only [hmet]
        by_cases hcursor : set.mainSelection.cursor = start + index
        · rw [if_pos hcursor, if_pos hcursor, hcursor, Nat.add_sub_cancel_left]
          split_ifs <;> rfl
        · rw [if_neg hcursor, if_neg hcursor]
          split_ifs <;> rfl
      · have hmissed : ¬ (start + index ≤ set.mainSelection.cursor ∧
            set.mainSelection.cursor ≤ start + index ∧
            set.mainSelection.cursor < start + view.rowLength) := by
          omega
        rw [if_neg hlast, if_neg hmissed, ViewOptions.endStrokes,
          if_neg fun hdrawn => hlast hdrawn.1]
        rfl
  | cons byte bytes ih =>
      rw [List.length_cons] at hroom
      simp only [Drawing.cells, hpassed, h.inkAt_passed, h.isMainCursor_passed, meet_eq,
        decide_eq_true_eq]
      rw [← paint_byteStrokes, Nat.add_assoc,
        ih _ (Nat.le_succ (start + index)) (by omega) (passed_passed (Nat.le_succ _) _),
        ViewOptions.cellStrokes_cons, Grid.paint_append, List.length_cons]
      congr 1
      -- the main cursor is at this byte, or it is met later if it is met at all
      by_cases hcursor : set.mainSelection.cursor = start + index
      · rw [if_pos hcursor, if_neg (by omega), if_pos (by omega), hcursor, Nat.add_sub_cancel_left]
      · rw [if_neg hcursor]
        exact if_congr (by omega) rfl rfl

/-- A row that does not begin behind the end of the file.  It holds the place behind the last byte
if it is not full, so it meets the main cursor whenever this is less than a row away. -/
theorem row_eq (hsound : s.buffer.Sound) (h : s.selections.Valid s.buffer.length) {row start : Nat}
    (hstart : start ≤ s.buffer.length) (d : Drawing) :
    d.row view s row start =
      ⟨d.grid.paint row (view.rowStrokes s start),
        if start ≤ s.selections.mainSelection.cursor ∧
            s.selections.mainSelection.cursor < start + view.rowLength then
          some (row, view.hexColumn (s.selections.mainSelection.cursor - start))
        else d.cursor⟩ := by
  have hread : s.buffer.read ⟨start, min (start + view.rowLength) s.buffer.length⟩ =
      (s.buffer.toBytes.drop start).take view.rowLength := by
    have hleft : (s.buffer.toBytes.drop start).length = s.buffer.length - start := by
      rw [List.length_drop, hsound.length_eq]
    have hsize : min (start + view.rowLength) s.buffer.length - start =
        min view.rowLength (s.buffer.toBytes.drop start).length := by
      omega
    rw [hsound.read_eq (Nat.le_min.2 ⟨Nat.le_add_right _ _, hstart⟩), hsize,
      ← List.take_eq_take_min]
  have hlabel : (if view.showOffsets = true then d.grid.put row 0 (rowLabel start) .plain
      else d.grid) = d.grid.paint row (view.labelStrokes start) := by
    unfold ViewOptions.labelStrokes
    split_ifs <;> rfl
  have hlength : ((s.buffer.toBytes.drop start).take view.rowLength).length =
      min view.rowLength (s.buffer.length - start) := by
    rw [List.length_take, List.length_drop, hsound.length_eq]
  have hcells : Drawing.cells view s.selections.main row
      ⟨d.grid.paint row (view.labelStrokes start), d.cursor⟩
      (passed start s.selections.selections.zipIdx) (start + 0) 0
      ((s.buffer.toBytes.drop start).take view.rowLength) = _ :=
    cells_eq h _ (Nat.le_refl start) (by omega)
  rw [Nat.add_zero] at hcells
  have hcursor := h.mainCursor_le
  simp only [Drawing.row, hread, hlabel]
  rw [hcells, ViewOptions.rowStrokes, Grid.paint_append]
  congr 1
  exact if_congr (by omega) rfl rfl

/-! ## Some rows -/

section Rows

variable (hsound : s.buffer.Sound) (h : s.selections.Valid s.buffer.length) (view : ViewOptions)
  (top : Nat) (d : Drawing) (count row : Nat)

/-- No row is drawn from the first one on that begins behind the end of the file. -/
theorem rows_of_behind (hbehind : s.buffer.length < (top + row) * view.rowLength) :
    Drawing.rows view s top d (count + 1) row = d :=
  if_pos hbehind

include hsound h in
/-- The first of some rows is drawn like any row, and the others come after it. -/
theorem rows_succ (hstart : (top + row) * view.rowLength ≤ s.buffer.length) :
    Drawing.rows view s top d (count + 1) row =
      Drawing.rows view s top
        ⟨d.grid.paint row (view.rowStrokes s ((top + row) * view.rowLength)),
          if (top + row) * view.rowLength ≤ s.selections.mainSelection.cursor ∧
              s.selections.mainSelection.cursor <
                (top + row) * view.rowLength + view.rowLength then
            some (row, view.hexColumn
              (s.selections.mainSelection.cursor - (top + row) * view.rowLength))
          else d.cursor⟩ count (row + 1) := by
  rw [← row_eq hsound h hstart]
  exact if_neg (Nat.not_lt.2 hstart)

include hsound h in
/-- Drawing some rows leaves the strokes of a row in the cells of its line, if the row does not
begin behind the end of the file, and changes no other cell.  The induction is on the number of
rows. -/
theorem cellAt_rows (line col : Nat) :
    (Drawing.rows view s top d count row).grid.cellAt line col =
      (d.grid.cellAt line col).map fun cell =>
        if row ≤ line ∧ line < row + count ∧ (top + line) * view.rowLength ≤ s.buffer.length then
          Grid.Stroke.after (view.rowStrokes s ((top + line) * view.rowLength)) col cell
        else cell := by
  induction count generalizing d row with
  | zero =>
      have hnone : ¬ (row ≤ line ∧ line < row + 0 ∧
          (top + line) * view.rowLength ≤ s.buffer.length) := by
        omega
      simp only [Drawing.rows, if_neg hnone, Option.map_id']
  | succ count ih =>
      rcases Nat.lt_or_ge s.buffer.length ((top + row) * view.rowLength) with hbehind | hstart
      · have hnone : ¬ (row ≤ line ∧ line < row + (count + 1) ∧
            (top + line) * view.rowLength ≤ s.buffer.length) := by
          rintro ⟨hfrom, -, hline⟩
          have hlater : (top + row) * view.rowLength ≤ (top + line) * view.rowLength :=
            Nat.mul_le_mul_right _ (Nat.add_le_add_left hfrom _)
          omega
        simp only [rows_of_behind view top d count row hbehind, if_neg hnone, Option.map_id']
      · rw [rows_succ hsound h view top d count row hstart, ih, Grid.cellAt_paint, Option.map_map]
        congr 1
        funext cell
        simp only [Function.comp_apply, Int.natCast_inj]
        by_cases hline : row = line
        · subst hline
          rw [if_neg (by omega), if_pos rfl, if_pos ⟨Nat.le_refl _, by omega, hstart⟩]
        · rw [if_neg hline]
          exact if_congr (by omega) rfl rfl

include hsound h in
/-- Drawing some rows meets the main cursor if its row is among them.  The induction is on the
number of rows. -/
theorem cursor_rows {cursor : Nat} (hcursor : s.selections.mainSelection.cursor = cursor) :
    (Drawing.rows view s top d count row).cursor =
      if top + row ≤ cursor / view.rowLength ∧ cursor / view.rowLength < top + row + count then
        some (((cursor / view.rowLength - top : Nat) : Int),
          view.hexColumn (cursor % view.rowLength))
      else d.cursor := by
  have hpos : 0 < view.rowLength := Nat.le_max_right _ _
  have hinside : cursor ≤ s.buffer.length := hcursor ▸ h.mainCursor_le
  induction count generalizing d row with
  | zero =>
      have hnone : ¬ (top + row ≤ cursor / view.rowLength ∧
          cursor / view.rowLength < top + row + 0) := by
        omega
      rw [Drawing.rows, if_neg hnone]
  | succ count ih =>
      rcases Nat.lt_or_ge s.buffer.length ((top + row) * view.rowLength) with hbehind | hstart
      · have hbefore : cursor / view.rowLength < top + row :=
          (Nat.div_lt_iff_lt_mul hpos).2 (Nat.lt_of_le_of_lt hinside hbehind)
        rw [rows_of_behind view top d count row hbehind, if_neg (by omega)]
      · have hmet : ((top + row) * view.rowLength ≤ cursor ∧
            cursor < (top + row) * view.rowLength + view.rowLength) ↔
              cursor / view.rowLength = top + row := by
          rw [← Nat.succ_mul, ← Nat.le_div_iff_mul_le hpos, ← Nat.div_lt_iff_lt_mul hpos]
          omega
        rw [rows_succ hsound h view top d count row hstart, ih, hcursor]
        simp only [hmet]
        by_cases hfirst : cursor / view.rowLength = top + row
        · have hindex : cursor - (top + row) * view.rowLength = cursor % view.rowLength := by
            rw [← hfirst, Nat.mod_eq_sub_div_mul]
          rw [if_pos hfirst, if_neg (by omega), if_pos (by omega), hindex, hfirst,
            Nat.add_sub_cancel_left]
        · rw [if_neg hfirst]
          exact if_congr (by omega) rfl rfl

include hsound h in
/-- Drawing rows in a grid with another cursor, which has been shown another number of times,
differs in nothing else. -/
theorem rows_marked (cursor : Int × Int) (refreshes : Nat) :
    Drawing.rows view s top ⟨d.grid.marked cursor refreshes, d.cursor⟩ count row =
      ⟨(Drawing.rows view s top d count row).grid.marked cursor refreshes,
        (Drawing.rows view s top d count row).cursor⟩ := by
  induction count generalizing d row with
  | zero => rfl
  | succ count ih =>
      rcases Nat.lt_or_ge s.buffer.length ((top + row) * view.rowLength) with hbehind | hstart
      · rw [rows_of_behind view top _ count row hbehind,
          rows_of_behind view top _ count row hbehind]
      · rw [rows_succ hsound h view top _ count row hstart,
          rows_succ hsound h view top _ count row hstart, Grid.paint_marked, ← ih]

include hsound h in
/-- Drawing rows keeps the size of the grid. -/
theorem size_rows :
    (Drawing.rows view s top d count row).grid.rows = d.grid.rows ∧
      (Drawing.rows view s top d count row).grid.cols = d.grid.cols := by
  induction count generalizing d row with
  | zero => exact ⟨rfl, rfl⟩
  | succ count ih =>
      rcases Nat.lt_or_ge s.buffer.length ((top + row) * view.rowLength) with hbehind | hstart
      · rw [rows_of_behind view top d count row hbehind]
        exact ⟨rfl, rfl⟩
      · rw [rows_succ hsound h view top d count row hstart]
        rcases ih _ (row + 1) with ⟨hrows, hcols⟩
        exact ⟨hrows.trans (Grid.rows_paint _), hcols.trans (Grid.cols_paint _)⟩

end Rows

end Drawing

/-! ## The last row -/

namespace Grid

/-- The last row is drawn apart from the others. -/
theorem cellAt_putStatus (g : Grid) (s : Session) (status : Status) (cursor : Option (Int × Int))
    {row col : Nat} (hrow : row < g.rows - 1) :
    (g.putStatus s status cursor).cellAt row col = g.cellAt row col := by
  have hother : ¬ (g.rows : Int) - 1 = row := by omega
  have hmoved (g : Grid) (line column : Int) :
      (g.moveCursor line column).cellAt row col = g.cellAt row col := rfl
  unfold putStatus
  cases status.prompt with
  | some prompt =>
      simp only [hmoved, clearToEnd, put, cellAt_modifyRow, if_neg hother, Option.map_id']
  | none =>
      cases cursor <;> simp only [hmoved, put, cellAt_modifyRow, if_neg hother, Option.map_id']

/-- Drawing the last row keeps the size of the grid. -/
theorem size_putStatus (g : Grid) (s : Session) (status : Status) (place : Option (Int × Int)) :
    (g.putStatus s status place).rows = g.rows ∧ (g.putStatus s status place).cols = g.cols := by
  unfold putStatus
  cases status.prompt with
  | some prompt => simp [moveCursor, clearToEnd, put]
  | none => cases place <;> simp [moveCursor, put]

/-- Drawing the last row puts the cursor somewhere, wherever it was. -/
theorem putStatus_marked (g : Grid) (s : Session) (status : Status) (place : Option (Int × Int))
    (cursor : Int × Int) (refreshes : Nat) :
    (g.marked cursor refreshes).putStatus s status place =
      { g.putStatus s status place with refreshes } := by
  unfold putStatus
  cases status.prompt with
  | some prompt =>
      simp only [put, clearToEnd, modifyRow_marked]
      rfl
  | none =>
      simp only [put, modifyRow_marked]
      cases place <;> rfl

/-- Without a prompt, the cursor of the grid is put where the main cursor has been met. -/
theorem cursor_putStatus (g : Grid) (s : Session) {status : Status} (hprompt : status.prompt = none)
    {met : Option (Int × Int)} {place : Int × Int} (hmet : met = some place) :
    (g.putStatus s status met).cursor = place := by
  subst hmet
  unfold putStatus
  rw [hprompt]
  rfl

end Grid

/-! ## Sessions with one selection -/

namespace Session

/-- A session on some bytes with one selection. -/
def ofSelection (bytes : Bytes) (selection : Selection) : Session :=
  { scratch with buffer := .ofBytes bytes, selections := ⟨[selection], 0⟩ }

theorem valid_ofSelection (bytes : Bytes) (selection : Selection)
    (h : selection.last ≤ bytes.length) :
    (ofSelection bytes selection).selections.Valid (ofSelection bytes selection).buffer.length := by
  change SelectionSet.Valid _ (Rope.ofBytes bytes).length
  rw [Rope.length_ofBytes]
  exact ⟨List.pairwise_singleton _ _, Nat.zero_lt_one, fun s hs => List.mem_singleton.1 hs ▸ h⟩

end Session

end HexEditor
