import HexEditor.Proofs.Screen.Rows

/-!
# Following the main cursor

The rows of a drawing are chosen so that the row of the main cursor is among them.  If it is among
the rows that were shown before, these stay; otherwise they move as little as they can.  The cursor
of the grid is put at the digits of the main cursor, also if this is behind the last byte of the
file and its row holds no byte.

What a grid showed before it is drawn in makes no difference, so drawing the same again, from the
same row on, changes nothing.

Main results:

- Theorem `scrolled_eq`: the first row that is shown, and theorem `scrolled_least`: it moves as
  little as it can.
- Theorem `Grid.render_of_size`: a drawing depends on the size of the grid alone.
- Theorem `Grid.render_follows_cursor`: where the main cursor is shown.
-/

namespace HexEditor

/-- The row of the main cursor, counted from the start of the file. -/
def Session.mainRow (s : Session) (view : ViewOptions) : Nat :=
  s.selections.mainSelection.cursor / view.rowLength

/-! ## Scrolling -/

section Scrolling

variable {top row shown : Nat}

/-- The first row that is shown, as long as rows are counted in words. -/
theorem scrolled_eq (hshown : 0 < shown) (hroom : row + shown < offsetCount) :
    scrolled top row shown =
      if row < top then row else if top + shown ≤ row then row - shown + 1 else top := by
  have hwrap {n : Nat} (hle : n ≤ row) : wrap (n + shown) = n + shown :=
    Nat.mod_eq_of_lt (by omega)
  unfold scrolled
  by_cases habove : row < top
  · simp only [if_pos habove, hwrap (Nat.le_refl row)]
    rw [if_neg (by omega)]
  · simp only [if_neg habove, hwrap (Nat.le_of_not_lt habove)]

theorem scrolled_bounds (top : Nat) (hshown : 0 < shown) (hroom : row + shown < offsetCount) :
    scrolled top row shown ≤ row ∧ row < scrolled top row shown + shown := by
  rw [scrolled_eq hshown hroom]
  split_ifs <;> omega

theorem scrolled_eq_self (hshown : 0 < shown) (hroom : row + shown < offsetCount)
    (habove : top ≤ row) (hbelow : row < top + shown) : scrolled top row shown = top := by
  rw [scrolled_eq hshown hroom, if_neg (by omega), if_neg (by omega)]

/-- Among all first rows that leave the given row in sight, none is closer to the old one. -/
theorem scrolled_least (hshown : 0 < shown) (hroom : row + shown < offsetCount) {other : Nat}
    (habove : other ≤ row) (hbelow : row < other + shown) :
    ((scrolled top row shown : Int) - top).natAbs ≤ ((other : Int) - top).natAbs := by
  rw [scrolled_eq hshown hroom]
  split_ifs <;> omega

end Scrolling

namespace Grid

variable {s : Session} {view : ViewOptions}

/-! ## Drawing again -/

theorem size_render (hsound : s.buffer.Sound) (hset : s.selections.Valid s.buffer.length) (g : Grid)
    (top : Nat) (view : ViewOptions) (status : Status) :
    (g.render s top view status).1.rows = g.rows ∧
      (g.render s top view status).1.cols = g.cols := by
  have hrows (first : Nat) := Drawing.size_rows hsound hset view first ⟨g.clear, none⟩
    (textRows g.rows) 0
  exact ⟨(size_putStatus _ _ _ _).1.trans (hrows _).1, (size_putStatus _ _ _ _).2.trans (hrows _).2⟩

/-- What a grid showed before makes no difference to a drawing. -/
theorem render_of_size (hsound : s.buffer.Sound) (hset : s.selections.Valid s.buffer.length)
    {g other : Grid} (hrows : other.rows = g.rows) (hcols : other.cols = g.cols) (top : Nat)
    (view : ViewOptions) (status : Status) :
    other.render s top view status =
      ({ (g.render s top view status).1 with refreshes := other.refreshes + 1 },
        (g.render s top view status).2) := by
  have hclear : other.clear = g.clear.marked other.cursor other.refreshes := by
    simp only [clear, marked, hrows, hcols]
  have hmarked (first : Nat) := Drawing.rows_marked hsound hset view first
    ⟨g.clear, none⟩ (textRows g.rows) 0 other.cursor other.refreshes
  simp only [render, hclear, hrows, hmarked, putStatus_marked]
  rfl

/-- A drawing depends on the rows that were shown before through the first row that it shows. -/
theorem render_congr {top other : Nat} (g : Grid) (s : Session) (view : ViewOptions)
    (status : Status)
    (h : scrolled top (s.mainRow view) (textRows g.rows) =
      scrolled other (s.mainRow view) (textRows g.rows)) :
    g.render s top view status = g.render s other view status := by
  unfold Session.mainRow at h
  simp only [render, h]

/-! ## The place of the main cursor -/

/-- The main cursor is met if its row is among those that are shown. -/
theorem cursor_render (hsound : s.buffer.Sound) (hset : s.selections.Valid s.buffer.length)
    (g : Grid) (top : Nat) (view : ViewOptions) {status : Status} (hprompt : status.prompt = none)
    {first : Nat} (hfirst : (g.render s top view status).2 = first)
    (habove : first ≤ s.mainRow view) (hbelow : s.mainRow view < first + textRows g.rows) :
    (g.render s top view status).1.cursor = ((s.mainRow view : Int) - first,
      view.hexColumn (s.selections.mainSelection.cursor % view.rowLength)) := by
  have hmet : (Drawing.rows view s first ⟨g.clear, none⟩ (textRows g.rows) 0).cursor =
      some ((s.mainRow view : Int) - first,
        view.hexColumn (s.selections.mainSelection.cursor % view.rowLength)) := by
    rw [Drawing.cursor_rows hsound hset view _ _ _ _ rfl, if_pos ⟨habove, hbelow⟩]
    exact congrArg (fun row : Int => some (row, _)) (Int.ofNat_sub habove)
  subst hfirst
  exact cursor_putStatus _ s hprompt hmet

/-- A drawing without a prompt leaves the main cursor in sight.  The row of the main cursor is among
the rows that are shown, and the cursor of the grid is at its place in this row.  The first row
stays if the main cursor was in sight already, and otherwise it moves as little as it can; so
drawing again changes nothing.  The rows are counted in words, so a file must leave room in a word
for as many rows as are shown. -/
theorem render_follows_cursor (hsound : s.buffer.Sound)
    (hset : s.selections.Valid s.buffer.length) (g : Grid)
    (hroom : s.buffer.length + textRows g.rows < offsetCount) (top : Nat) (view : ViewOptions)
    (status : Status) (hprompt : status.prompt = none) :
    ∃ shown first, g.render s top view status = (shown, first) ∧
      first ≤ s.mainRow view ∧ s.mainRow view < first + textRows g.rows ∧
      shown.cursor = ((s.mainRow view : Int) - first,
        view.hexColumn (s.selections.mainSelection.cursor % view.rowLength)) ∧
      (top ≤ s.mainRow view ∧ s.mainRow view < top + textRows g.rows → first = top) ∧
      (∀ other, other ≤ s.mainRow view → s.mainRow view < other + textRows g.rows →
        ((first : Int) - top).natAbs ≤ ((other : Int) - top).natAbs) ∧
      shown.render s first view status =
        ({ shown with refreshes := shown.refreshes + 1 }, first) := by
  have hshown : 0 < textRows g.rows := Nat.le_max_left _ _
  have hrow : s.mainRow view + textRows g.rows < offsetCount := by
    have hle : s.mainRow view ≤ s.selections.mainSelection.cursor := Nat.div_le_self _ _
    have hinside := hset.mainCursor_le
    omega
  rcases hdrawn : g.render s top view status with ⟨shown, first⟩
  have hfirst : scrolled top (s.mainRow view) (textRows g.rows) = first := congrArg Prod.snd hdrawn
  have hbounds := scrolled_bounds top hshown hrow
  have hcursor := cursor_render hsound hset g top view hprompt (congrArg Prod.snd hdrawn)
  have hsize := size_render hsound hset g top view status
  rw [hfirst] at hbounds
  rw [hdrawn] at hcursor hsize
  refine ⟨shown, first, rfl, hbounds.1, hbounds.2, hcursor hbounds.1 hbounds.2, ?_, ?_, ?_⟩
  · rintro ⟨habove, hbelow⟩
    exact hfirst.symm.trans (scrolled_eq_self hshown hrow habove hbelow)
  · intro other habove hbelow
    exact hfirst ▸ scrolled_least hshown hrow habove hbelow
  · have hagain := hfirst.trans (scrolled_eq_self hshown hrow hbounds.1 hbounds.2).symm
    rw [render_of_size hsound hset hsize.1 hsize.2, ← render_congr g s view status hagain, hdrawn]

/-- The main cursor is behind four bytes, of which there are four in a row, so its row holds none.
The only row of text that is shown follows it there. -/
theorem render_follows_cursor_behind :
    ∃ shown first,
      (blank 2 40).render (.ofSelection [1, 2, 3, 4] (.point 4)) 0 ⟨4, true, true⟩
        ⟨ascii "NOR", [], none, 0, 1⟩ = (shown, first) ∧
      first = 1 ∧ shown.cursor = (0, 10) := by
  have hroom : (Session.ofSelection [1, 2, 3, 4] (.point 4)).buffer.length +
      textRows (blank 2 40).rows < offsetCount := by
    change (Rope.ofBytes [1, 2, 3, 4]).length + _ < _
    rw [Rope.length_ofBytes]
    decide
  rcases render_follows_cursor (Rope.sound_ofBytes _)
      (Session.valid_ofSelection [1, 2, 3, 4] (.point 4) (by decide))
      (blank 2 40) hroom 0 ⟨4, true, true⟩ ⟨ascii "NOR", [], none, 0, 1⟩ rfl with
    ⟨shown, first, hdrawn, -, -, hcursor, -⟩
  obtain rfl : first = 1 := (congrArg Prod.snd hdrawn).symm
  exact ⟨shown, 1, hdrawn, rfl, hcursor.trans (by decide)⟩

end Grid

end HexEditor
