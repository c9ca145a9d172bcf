import HexEditor.Proofs.Selection.Components
import HexEditor.Screen.View

/-!
# The colours of offsets

The rule for the colour of an offset looks at all selections: the offset is under a cursor, or below
the main selection, or below another one, or none of this.  Drawing does not look at all of them.
It goes through the offsets in order and passes the selections that end in front of the next one;
the first that is left is the only one that can cover it, because the selections are in order and
apart.

Main results:

- Definition `SelectionSet.colour`: the rule.
- Theorem `passed_passed`: passing selections bit by bit.
- Theorem `SelectionSet.Valid.passed_cases`: the first selection that has not been passed covers the
  offset, or no selection does.
- Theorems `SelectionSet.Valid.inkAt_passed` and `SelectionSet.Valid.isMainCursor_passed`: drawing
  follows the rule, and meets the main cursor at its offset.
-/

namespace HexEditor

namespace SelectionSet

/-- The colour of an offset.  A cursor goes before the selections, and the main selection before the
others. -/
def colour (set : SelectionSet) (offset : Nat) : Ink :=
  if ∃ s ∈ set.selections, (s.first ≤ offset ∧ offset ≤ s.last) ∧ s.cursor = offset then .cursor
  else if set.mainSelection.first ≤ offset ∧ offset ≤ set.mainSelection.last then .mainSelection
  else if Covered set.selections offset then .selection
  else .plain

end SelectionSet

/-! ## Passing selections -/

theorem dropWhile_dropWhile {α : Type} {p q : α → Bool} (h : ∀ x, p x = true → q x = true)
    (l : List α) : (l.dropWhile p).dropWhile q = l.dropWhile q := by
  induction l with
  | nil => rfl
  | cons x l ih =>
      by_cases hp : p x = true
      · rw [List.dropWhile_cons_of_pos hp, List.dropWhile_cons_of_pos (h x hp), ih]
      · rw [List.dropWhile_cons_of_neg hp]

/-- What has been passed in front of an offset need not be looked at for a later one. -/
theorem passed_passed {low high : Nat} (h : low ≤ high) (selections : List Indexed) :
    passed high (passed low selections) = passed high selections := by
  apply dropWhile_dropWhile
  intro s hs
  exact decide_eq_true (Nat.lt_of_lt_of_le (of_decide_eq_true hs) h)

namespace SelectionSet

variable {set : SelectionSet} {s t : Selection} {length offset i j : Nat}

/-- Only one index of a valid set belongs to a selection that covers an offset. -/
theorem Valid.index_eq_of_shared (h : set.Valid length) (hi : set.selections[i]? = some s)
    (hj : set.selections[j]? = some t) (hs : s.first ≤ offset ∧ offset ≤ s.last)
    (ht : t.first ≤ offset ∧ offset ≤ t.last) : i = j := by
  rcases List.getElem?_eq_some_iff.1 hi with ⟨hilt, rfl⟩
  rcases List.getElem?_eq_some_iff.1 hj with ⟨hjlt, rfl⟩
  rcases Nat.lt_trichotomy i j with hlt | heq | hgt
  · have hapart := List.pairwise_iff_getElem.1 h.separate i j hilt hjlt hlt
    omega
  · exact heq
  · have hapart := List.pairwise_iff_getElem.1 h.separate j i hjlt hilt hgt
    omega

/-- The first selection of a row in order that has not been passed covers the offset, or else none
of them does.  The induction is on the row. -/
theorem passed_zipIdx_cases {selections : List Selection}
    (hseparate : selections.Pairwise fun s t => s.last < t.first) (offset k : Nat) :
    (∃ s i rest, passed offset (selections.zipIdx k) = (s, i) :: rest ∧
      (s, i) ∈ selections.zipIdx k ∧ s.first ≤ offset ∧ offset ≤ s.last) ∨
    (¬ Covered selections offset ∧
      ∀ p ∈ (passed offset (selections.zipIdx k)).head?, offset < p.1.first) := by
  induction selections generalizing k with
  | nil => exact .inr ⟨fun ⟨s, hs, _⟩ => absurd hs List.not_mem_nil, by simp [passed]⟩
  | cons s selections ih =>
      rcases List.pairwise_cons.1 hseparate with ⟨hbehind, hseparate⟩
      have hends := s.first_le_last
      rw [List.zipIdx_cons]
      by_cases hpassed : s.last < offset
      · have hskip : passed offset ((s, k) :: selections.zipIdx (k + 1)) =
            passed offset (selections.zipIdx (k + 1)) :=
          List.dropWhile_cons_of_pos (decide_eq_true hpassed)
        rw [hskip]
        rcases ih hseparate (k + 1) with ⟨t, i, rest, hrest, hmem, hcovers⟩ | ⟨hnone, hhead⟩
        · exact .inl ⟨t, i, rest, hrest, List.mem_cons_of_mem _ hmem, hcovers⟩
        · refine .inr ⟨?_, hhead⟩
          rintro ⟨t, ht, hcovers⟩
          rcases List.mem_cons.1 ht with rfl | ht
          · omega
          · exact hnone ⟨t, ht, hcovers⟩
      · have hstay : passed offset ((s, k) :: selections.zipIdx (k + 1)) =
            (s, k) :: selections.zipIdx (k + 1) :=
          List.dropWhile_cons_of_neg (by simpa using hpassed)
        rw [hstay]
        by_cases hcovers : s.first ≤ offset
        · exact .inl ⟨s, k, _, rfl, List.mem_cons_self, hcovers, Nat.le_of_not_lt hpassed⟩
        · refine .inr ⟨?_, by simpa using hcovers⟩
          rintro ⟨t, ht, hcovers'⟩
          rcases List.mem_cons.1 ht with rfl | ht
          · exact hcovers hcovers'.1
          · have hlt := hbehind t ht
            omega

/-- The first selection of a valid set that has not been passed covers the offset, or else none of
them does. -/
theorem Valid.passed_cases (h : set.Valid length) (offset : Nat) :
    (∃ s i rest, passed offset set.selections.zipIdx = (s, i) :: rest ∧
      set.selections[i]? = some s ∧ s.first ≤ offset ∧ offset ≤ s.last) ∨
    (¬ Covered set.selections offset ∧
      ∀ p ∈ (passed offset set.selections.zipIdx).head?, offset < p.1.first) := by
  rcases passed_zipIdx_cases h.separate offset 0 with ⟨s, i, rest, hrest, hmem, hcovers⟩ | hnone
  · exact .inl ⟨s, i, rest, hrest, List.mem_zipIdx_iff_getElem?.1 hmem, hcovers⟩
  · exact .inr hnone

/-! ## Drawing and the rule -/

theorem colour_eq_plain (h : set.Valid length) (hnone : ¬ Covered set.selections offset) :
    set.colour offset = .plain := by
  have hmain : ¬ (set.mainSelection.first ≤ offset ∧ offset ≤ set.mainSelection.last) :=
    fun hcovers => hnone ⟨_, h.mainSelection_mem, hcovers⟩
  have hcursor : ¬ ∃ s ∈ set.selections,
      (s.first ≤ offset ∧ offset ≤ s.last) ∧ s.cursor = offset :=
    fun ⟨s, hs, hcovers, _⟩ => hnone ⟨s, hs, hcovers⟩
  rw [colour, if_neg hcursor, if_neg hmain, if_neg hnone]

/-- The rule for an offset below a selection whose index is known. -/
theorem Valid.colour_eq (h : set.Valid length) (hi : set.selections[i]? = some s)
    (hs : s.first ≤ offset ∧ offset ≤ s.last) :
    set.colour offset =
      if s.cursor = offset then .cursor
      else if i = set.main then .mainSelection
      else .selection := by
  have hmem := List.mem_of_getElem? hi
  have hcursor : (∃ t ∈ set.selections,
      (t.first ≤ offset ∧ offset ≤ t.last) ∧ t.cursor = offset) ↔ s.cursor = offset := by
    constructor
    · rintro ⟨t, ht, hcovers, hoffset⟩
      rwa [h.eq_of_shared hmem ht hs hcovers]
    · exact fun hoffset => ⟨s, hmem, hs, hoffset⟩
  have hmain : (set.mainSelection.first ≤ offset ∧ offset ≤ set.mainSelection.last) ↔
      i = set.main := by
    constructor
    · exact fun hcovers => h.index_eq_of_shared hi h.getElem?_main hs hcovers
    · rintro rfl
      rw [h.getElem?_main] at hi
      cases hi
      exact hs
  rw [colour, if_pos (show Covered set.selections offset from ⟨s, hmem, hs⟩)]
  simp only [hcursor, hmain]

theorem Valid.colour_ne_plain_iff (h : set.Valid length) :
    set.colour offset ≠ .plain ↔ Covered set.selections offset := by
  constructor
  · intro hne
    by_contra hnone
    exact hne (colour_eq_plain h hnone)
  · rintro ⟨s, hs, hcovers⟩
    rcases List.getElem?_of_mem hs with ⟨i, hi⟩
    rw [h.colour_eq hi hcovers]
    split_ifs <;> decide

/-- Drawing follows the rule. -/
theorem Valid.inkAt_passed (h : set.Valid length) (offset : Nat) :
    inkAt set.main offset (passed offset set.selections.zipIdx) = set.colour offset := by
  rcases h.passed_cases offset with ⟨s, i, rest, hrest, hi, hcovers⟩ | ⟨hnone, hhead⟩
  · rw [hrest, inkAt, if_pos hcovers.1, h.colour_eq hi hcovers]
  · rw [colour_eq_plain h hnone]
    cases hrest : passed offset set.selections.zipIdx with
    | nil => rfl
    | cons p rest =>
        have hfirst := hhead p (by rw [hrest, List.head?_cons]; rfl)
        exact if_neg (Nat.not_le.2 hfirst)

/-- Drawing meets the main cursor at its offset. -/
theorem Valid.isMainCursor_passed (h : set.Valid length) (offset : Nat) :
    isMainCursor set.main offset (passed offset set.selections.zipIdx) =
      decide (set.mainSelection.cursor = offset) := by
  have hbelow : set.mainSelection.cursor = offset →
      set.mainSelection.first ≤ offset ∧ offset ≤ set.mainSelection.last := by
    rintro rfl
    exact ⟨Nat.min_le_right _ _, Nat.le_max_right _ _⟩
  rcases h.passed_cases offset with ⟨s, i, rest, hrest, hi, hcovers⟩ | ⟨hnone, hhead⟩
  · rw [hrest, Bool.eq_iff_iff]
    simp only [isMainCursor, hcovers.1, decide_true, Bool.true_and, Bool.and_eq_true, beq_iff_eq,
      decide_eq_true_eq]
    constructor
    · rintro ⟨rfl, hoffset⟩
      rw [h.getElem?_main] at hi
      cases hi
      exact hoffset
    · intro hoffset
      have hmain := h.index_eq_of_shared hi h.getElem?_main hcovers (hbelow hoffset)
      rw [hmain, h.getElem?_main] at hi
      cases hi
      exact ⟨hmain, hoffset⟩
  · have hcursor : ¬ set.mainSelection.cursor = offset := fun hoffset =>
      hnone ⟨_, h.mainSelection_mem, hbelow hoffset⟩
    rw [decide_eq_false hcursor]
    cases hrest : passed offset set.selections.zipIdx with
    | nil => rfl
    | cons p rest =>
        have hfirst := hhead p (by rw [hrest, List.head?_cons]; rfl)
        simp only [isMainCursor, decide_eq_false (Nat.not_le.2 hfirst), Bool.false_and]

end SelectionSet

end HexEditor
