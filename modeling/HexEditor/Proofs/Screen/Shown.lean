import HexEditor.Proofs.Screen.Rows

/-!
# What a drawing shows

A drawing of a session shows in each row the digits and the characters of the bytes of this row, in
the colours that the rule gives for their offsets, and the cell behind the last byte of the file if
it is selected.  No two of these texts reach the same column, so each is shown as far as the grid
goes.  What is left of a row belongs to its label, and everything else is blank.

Main results:

- Theorems `ViewOptions.hexColumn_eq` and `ViewOptions.asciiColumn_eq`: the columns of rows that are
  not too long.
- Definition `Drawn`: the texts that a row shows besides its label.
- Theorem `Drawn.eq_of_shared`: no two of them reach the same column.
- Theorem `Grid.render_shows`: what every cell above the last row shows.
-/

namespace HexEditor

/-! ## Columns -/

namespace ViewOptions

variable {view : ViewOptions} {index : Nat}

theorem offsetWidth_bounds (view : ViewOptions) : 0 ≤ view.offsetWidth ∧ view.offsetWidth ≤ 10 := by
  unfold offsetWidth
  split_ifs <;> decide

theorem columnOf_eq {n : Int} (hpos : 0 ≤ n) (hle : n < 0x80000000) : columnOf n = n :=
  Int.bmod_eq_of_le (by omega) (by omega)

theorem hexColumn_eq (hindex : index ≤ 4096) :
    view.hexColumn index = view.offsetWidth + 3 * index := by
  have hwidth := view.offsetWidth_bounds
  rw [hexColumn, columnOf_eq (n := index) (by omega) (by omega),
    columnOf_eq (by omega) (by omega), Int.mul_comm]

theorem asciiColumn_eq (hwidth : view.width ≤ 4096) (hindex : index < view.width) :
    view.asciiColumn index = view.offsetWidth + 3 * view.width + 1 + index := by
  have hoffsets := view.offsetWidth_bounds
  rw [asciiColumn, hexColumn_eq hwidth, columnOf_eq (n := index) (by omega) (by omega),
    columnOf_eq (by omega) (by omega)]

end ViewOptions

/-! ## Texts of a row -/

/-- The texts that a row of a session shows besides its label, if it begins at the given offset. -/
inductive Drawn (view : ViewOptions) (s : Session) (start : Nat) : Grid.Stroke → Prop where
  /-- The digits of a byte. -/
  | digits {index : Nat} {byte : UInt8} (room : index < view.width)
      (found : s.buffer.toBytes[start + index]? = some byte) :
      Drawn view s start
        ⟨view.hexColumn index, Text.byteDigits byte, s.selections.colour (start + index)⟩
  /-- The character of a byte. -/
  | character {index : Nat} {byte : UInt8} (enabled : view.showAscii = true)
      (room : index < view.width) (found : s.buffer.toBytes[start + index]? = some byte) :
      Drawn view s start
        ⟨view.asciiColumn index, [shownByte byte], s.selections.colour (start + index)⟩
  /-- The cell behind the last byte of the file, which is selected. -/
  | ending {index : Nat} (room : index < view.width) (behind : start + index = s.buffer.length)
      (selected : Covered s.selections.selections (start + index)) :
      Drawn view s start ⟨view.hexColumn index, ascii "  ", s.selections.colour (start + index)⟩

variable {view : ViewOptions} {s : Session} {start : Nat}

/-- The strokes behind the label are the texts of the row. -/
theorem mem_cellStrokes_iff (hsound : s.buffer.Sound) (hset : s.selections.Valid s.buffer.length)
    (hpos : 0 < view.width) (hstart : start ≤ s.buffer.length) {k : Grid.Stroke} :
    k ∈ view.cellStrokes s.selections.colour start 0
        ((s.buffer.toBytes.drop start).take view.rowLength) ↔
      Drawn view s start k := by
  have hrow : view.rowLength = view.width := Nat.max_eq_left hpos
  have hlength : ((s.buffer.toBytes.drop start).take view.width).length =
      min view.width (s.buffer.length - start) := by
    rw [List.length_take, List.length_drop, hsound.length_eq]
  have hfound (index : Nat) (byte : UInt8) :
      ((s.buffer.toBytes.drop start).take view.width)[index]? = some byte ↔
        index < view.width ∧ s.buffer.toBytes[start + index]? = some byte := by
    rw [List.getElem?_take, List.getElem?_drop]
    split_ifs with hroom <;> simp [hroom]
  rw [hrow, ViewOptions.cellStrokes, Nat.zero_add, List.mem_append, List.mem_flatMap]
  constructor
  · rintro (⟨⟨byte, index⟩, hbyte, hk⟩ | hk)
    · rcases (hfound index byte).1 (List.mem_zipIdx_iff_getElem?.1 hbyte) with ⟨hroom, hbyte⟩
      rcases List.mem_cons.1 hk with rfl | hk
      · exact .digits hroom hbyte
      · split_ifs at hk with henabled
        · rw [List.mem_singleton.1 hk]
          exact .character henabled hroom hbyte
        · cases hk
    · unfold ViewOptions.endStrokes at hk
      split_ifs at hk with hdrawn
      · rw [List.mem_singleton.1 hk]
        rw [hrow] at hdrawn
        exact .ending hdrawn.1 (by omega) (hset.colour_ne_plain_iff.1 hdrawn.2)
      · cases hk
  · intro hk
    cases hk with
    | @digits index byte hroom hbyte =>
        exact .inl ⟨(byte, index),
          List.mem_zipIdx_iff_getElem?.2 ((hfound index byte).2 ⟨hroom, hbyte⟩),
          List.mem_cons_self⟩
    | @character index byte henabled hroom hbyte =>
        refine .inl ⟨(byte, index),
          List.mem_zipIdx_iff_getElem?.2 ((hfound index byte).2 ⟨hroom, hbyte⟩), ?_⟩
        rw [ViewOptions.byteStrokes, if_pos henabled]
        exact List.mem_cons_of_mem _ List.mem_cons_self
    | @ending index hroom hbehind hselected =>
        have hindex : ((s.buffer.toBytes.drop start).take view.width).length = index := by omega
        rw [hindex, ViewOptions.endStrokes, hrow,
          if_pos ⟨hroom, hset.colour_ne_plain_iff.2 hselected⟩]
        exact .inr List.mem_cons_self

/-- Texts of two bytes at the columns of digits reach the columns of their index alone. -/
theorem hexColumn_bounds {index col : Nat} {text : Text} {ink : Ink} {cell : Cell}
    (hindex : index ≤ 4096) (htext : text.length = 2)
    (h : Grid.Stroke.cell? ⟨view.hexColumn index, text, ink⟩ col = some cell) :
    view.offsetWidth + 3 * index ≤ col ∧ col < view.offsetWidth + 3 * index + 2 := by
  have hcol := Grid.Stroke.bounds_of_cell?_eq_some h
  simp only [ViewOptions.hexColumn_eq hindex, htext] at hcol
  omega

/-- A character reaches its column alone. -/
theorem eq_asciiColumn {index col : Nat} {byte : UInt8} {ink : Ink} {cell : Cell}
    (hwidth : view.width ≤ 4096) (hindex : index < view.width)
    (h : Grid.Stroke.cell? ⟨view.asciiColumn index, [byte], ink⟩ col = some cell) :
    col = view.offsetWidth + 3 * view.width + 1 + index := by
  have hcol := Grid.Stroke.bounds_of_cell?_eq_some h
  simp only [ViewOptions.asciiColumn_eq hwidth hindex, List.length_singleton] at hcol
  omega

/-- A column is reached by one text of a row at most. -/
theorem Drawn.eq_of_shared (hsound : s.buffer.Sound) (hwidth : view.width ≤ 4096)
    {k l : Grid.Stroke} {col : Nat} {wanted other : Cell} (hk : Drawn view s start k)
    (hl : Drawn view s start l) (hwanted : k.cell? col = some wanted)
    (hother : l.cell? col = some other) : k = l := by
  have hlength := hsound.length_eq
  cases hk with
  | @digits i byte hi hbyte =>
      have hin := (List.getElem?_eq_some_iff.1 hbyte).1
      have hkcol := hexColumn_bounds (by omega) rfl hwanted
      cases hl with
      | @digits j byte' hj hbyte' =>
          have hlcol := hexColumn_bounds (by omega) rfl hother
          obtain rfl : i = j := by omega
          cases hbyte.symm.trans hbyte'
          rfl
      | @character j byte' _ hj _ =>
          have hlcol := eq_asciiColumn hwidth hj hother
          omega
      | @ending j hj hbehind _ =>
          have hlcol := hexColumn_bounds (by omega) rfl hother
          omega
  | @character i byte _ hi hbyte =>
      have hkcol := eq_asciiColumn hwidth hi hwanted
      cases hl with
      | @digits j byte' hj hbyte' =>
          have hlcol := hexColumn_bounds (by omega) rfl hother
          omega
      | @character j byte' _ hj hbyte' =>
          have hlcol := eq_asciiColumn hwidth hj hother
          obtain rfl : i = j := by omega
          cases hbyte.symm.trans hbyte'
          rfl
      | @ending j hj hbehind _ =>
          have hlcol := hexColumn_bounds (by omega) rfl hother
          omega
  | @ending i hi hbehind _ =>
      have hkcol := hexColumn_bounds (by omega) rfl hwanted
      cases hl with
      | @digits j byte' hj hbyte' =>
          have hin := (List.getElem?_eq_some_iff.1 hbyte').1
          have hlcol := hexColumn_bounds (by omega) rfl hother
          omega
      | @character j byte' _ hj hbyte' =>
          have hlcol := eq_asciiColumn hwidth hj hother
          omega
      | @ending j hj hbehind' _ =>
          obtain rfl : i = j := by omega
          rfl

namespace Grid

/-- Above the last row, a drawing shows what the strokes of the rows leave of a blank grid. -/
theorem cellAt_render (hsound : s.buffer.Sound) (hset : s.selections.Valid s.buffer.length)
    (g : Grid) (top : Nat) (view : ViewOptions) (status : Status) {row col : Nat}
    (hrow : row < g.rows - 1) (hcol : col < g.cols) :
    (g.render s top view status).1.cellAt row col =
      some (if ((g.render s top view status).2 + row) * view.rowLength ≤ s.buffer.length then
        Stroke.after (view.rowStrokes s (((g.render s top view status).2 + row) * view.rowLength))
          col .blank
      else .blank) := by
  have hshown : row < 0 + textRows g.rows := by
    rw [Nat.zero_add]
    exact Nat.lt_of_lt_of_le hrow (Nat.le_max_right _ _)
  have hlast (first : Nat) : row <
      (Drawing.rows view s first ⟨g.clear, none⟩ (textRows g.rows) 0).grid.rows - 1 := by
    rw [(Drawing.size_rows hsound hset _ _ _ _ _).1]
    exact hrow
  refine (cellAt_putStatus _ s status _ (hlast _)).trans ?_
  rw [Drawing.cellAt_rows hsound hset, cellAt_clear g (by omega) hcol, Option.map_some]
  simp only [Nat.zero_le, hshown, true_and]
  rfl

/-- A drawing shows a session.  Above the last row, a row that begins behind the end of the file is
blank.  Every other row shows the digits of its bytes and, if they are enabled, their characters,
and it shows the cell behind the last byte of the file if this is selected; each in the colour of
its offset, as far as the grid goes.  What is left of the row belongs to its label or is blank. -/
theorem render_shows (hsound : s.buffer.Sound) (hset : s.selections.Valid s.buffer.length)
    (view : ViewOptions) (hpos : 1 ≤ view.width) (hwidth : view.width ≤ 4096) (g : Grid) (top : Nat)
    (status : Status) :
    ∃ shown first, g.render s top view status = (shown, first) ∧
      ∀ row < g.rows - 1, ∀ col < g.cols,
        (s.buffer.length < (first + row) * view.width → shown.cellAt row col = some .blank) ∧
        ((first + row) * view.width ≤ s.buffer.length →
          (∀ k, Drawn view s ((first + row) * view.width) k → ∀ cell, k.cell? col = some cell →
            shown.cellAt row col = some cell) ∧
          ((∀ k, Drawn view s ((first + row) * view.width) k → k.cell? col = none) →
            shown.cellAt row col = some
              (if view.showOffsets then
                (Stroke.cell? ⟨0, rowLabel ((first + row) * view.width), .plain⟩ col).getD .blank
              else .blank))) := by
  rcases hdrawn : g.render s top view status with ⟨shown, first⟩
  refine ⟨shown, first, rfl, fun row hrow col hcol => ?_⟩
  have hwide : view.rowLength = view.width := Nat.max_eq_left hpos
  have hcell := cellAt_render hsound hset g top view status hrow hcol
  rw [hdrawn, hwide] at hcell
  refine ⟨fun hbehind => ?_, fun hstart => ?_⟩
  · rw [hcell, if_neg (Nat.not_le.2 hbehind)]
  · have hmem (k : Stroke) := mem_cellStrokes_iff hsound hset hpos hstart (k := k)
    rw [hcell, if_pos hstart, ViewOptions.rowStrokes, Stroke.after_append]
    refine ⟨fun k hk cell hwanted => ?_, fun hnone => ?_⟩
    · -- nothing else reaches the column, so the order of drawing does not matter
      congr 1
      refine Stroke.after_eq_of_mem ((hmem k).2 hk) hwanted fun l hl other hother => ?_
      rw [hk.eq_of_shared hsound hwidth ((hmem l).1 hl) hwanted hother, hother] at hwanted
      exact Option.some.inj hwanted
    · rw [Stroke.after_eq_self fun k hk => hnone k ((hmem k).1 hk), ViewOptions.labelStrokes]
      split_ifs <;> rfl

/-- The digits of the first of two bytes are shown without a highlight.  The second one is selected
together with the place behind it, which has the colour of the cursor. -/
theorem render_shows_selected_end :
    ∃ shown first,
      (blank 3 40).render (.ofSelection [65, 10] ⟨1, 2⟩) 7 ⟨4, true, true⟩
        ⟨ascii "NOR", [], none, 0, 1⟩ = (shown, first) ∧
      shown.cellAt 0 10 = some ⟨52, .plain⟩ ∧ shown.cellAt 0 16 = some ⟨32, .cursor⟩ ∧
      shown.cellAt 1 16 = some .blank := by
  have hlength : (Session.ofSelection [65, 10] ⟨1, 2⟩).buffer.length = 2 := Rope.length_ofBytes _
  have hbytes : (Session.ofSelection [65, 10] ⟨1, 2⟩).buffer.toBytes = [65, 10] :=
    Rope.toBytes_ofBytes _
  rcases render_shows (Rope.sound_ofBytes _)
      (Session.valid_ofSelection [65, 10] ⟨1, 2⟩ (by decide)) ⟨4, true, true⟩ (by decide)
      (by decide) (blank 3 40) 7 ⟨ascii "NOR", [], none, 0, 1⟩ with ⟨shown, first, hdrawn, hshows⟩
  obtain rfl : first = 0 := (congrArg Prod.snd hdrawn).symm
  have hrow (col : Nat) (hcol : col < 40) := ((hshows 0 (by decide) col hcol).2 (Nat.zero_le _)).1
  refine ⟨shown, 0, hdrawn, ?_, ?_, ?_⟩
  · have hdigits : (Session.ofSelection [65, 10] ⟨1, 2⟩).buffer.toBytes[0 + 0]? = some 65 := by
      rw [hbytes]
      rfl
    exact hrow 10 (by decide) _ (.digits (by decide) hdigits) _ (by decide)
  · exact hrow 16 (by decide) _ (.ending (show 2 < 4 by decide) hlength.symm (by decide)) _
      (by decide)
  · exact (hshows 1 (by decide) 16 (by decide)).1 (by rw [hlength]; decide)

end Grid

end HexEditor
