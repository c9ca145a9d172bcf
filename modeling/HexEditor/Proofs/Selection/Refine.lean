import HexEditor.Selection.Split
import HexEditor.Proofs.Selection.Valid
import HexEditor.Proofs.Pattern.Search

/-!
# Splitting and matching lead to valid sets

A selection is cut into pieces that end no later than it does, or is replaced by parts
of the file that lie between delimiters or meet a pattern.  Delimiters and matches are
found by searching, so they end no later than the file.

Main results:

- Theorems `Selection.pairwise_map_ofRange` and `Selection.ofRange_within`: the selections of
  ranges in order, and of ranges below a selection.
- Theorem `SelectionSet.last_le_of_mem_widthPieces`: pieces of one width stay within
  their selection, although their offsets may go round.
- Theorems `SelectionSet.gaps_nil` and `SelectionSet.gaps_cons`: the parts between
  delimiters, one delimiter after the other.
- Theorems `SelectionSet.Valid.splitWidth`, `SelectionSet.Valid.splitNull?`,
  `SelectionSet.valid_splitPattern?` and `SelectionSet.valid_selectMatching?`.
-/

namespace HexEditor

namespace Selection

variable {s t : Selection} {range : Range} {length : Nat}

theorem ofRange_eq (backward : Bool) (h : range.start < range.stop) :
    ofRange range backward = oriented backward range.start (range.stop - 1) := by
  have hfull : range.isEmpty = false := by simpa [Range.isEmpty] using h
  simp [ofRange, hfull]

theorem first_ofRange (backward : Bool) (h : range.start < range.stop) :
    (ofRange range backward).first = range.start := by
  rw [ofRange_eq backward h, first_oriented _ (by omega)]

theorem last_ofRange (backward : Bool) (h : range.start < range.stop) :
    (ofRange range backward).last = range.stop - 1 := by
  rw [ofRange_eq backward h, last_oriented]
  omega

/-- The selections of ranges in order that are not empty share no offset. -/
theorem pairwise_map_ofRange {ranges : List Range} (hproper : ∀ r ∈ ranges, r.start < r.stop)
    (hordered : ranges.Pairwise fun r t => r.stop ≤ t.start) (backward : Bool) :
    (ranges.map (ofRange · backward)).Pairwise fun s t => s.last < t.first := by
  rw [List.pairwise_map]
  apply hordered.imp_of_mem
  intro r t hr ht hrt
  have hr' := hproper r hr
  rw [last_ofRange backward hr', first_ofRange backward (hproper t ht)]
  omega

/-- The selection of a range of bytes below a selection stays within it. -/
theorem ofRange_within (hlast : s.last ≤ length) (hproper : range.start < range.stop)
    (hstart : (s.covered length).start ≤ range.start)
    (hstop : range.stop ≤ (s.covered length).stop) (backward : Bool) :
    s.first ≤ (ofRange range backward).first ∧ (ofRange range backward).last ≤ s.last := by
  have hfirst := s.first_le_last
  have hbehind : s.behind ≤ s.last + 1 := Nat.mod_le _ _
  rw [first_ofRange backward hproper, last_ofRange backward hproper]
  simp only [covered] at hstart hstop
  omega

theorem stop_covered_le (s : Selection) (length : Nat) : (s.covered length).stop ≤ length := by
  simp only [covered]
  omega

theorem start_covered_le_stop (s : Selection) (length : Nat) :
    (s.covered length).start ≤ (s.covered length).stop :=
  Nat.le_max_left _ _

/-- The bytes below a selection end in front of those below a later one. -/
theorem stop_covered_le_start (h : s.last < t.first) :
    (s.covered length).stop ≤ (t.covered length).start := by
  have hs := s.first_le_last
  have hbehind : s.behind ≤ s.last + 1 := Nat.mod_le _ _
  simp only [covered]
  omega

end Selection

namespace SelectionSet

variable {set : SelectionSet} {length : Nat} {rope : Rope}

/-! ## Pieces of one width -/

/-- An offset that has gone round leads back in front of the end of the selection or
ends the cutting, so no piece goes beyond it. -/
theorem last_le_of_mem_widthPieces {width rounds offset : Nat} {s : Selection}
    {made : List Selection} (hmade : ∀ t ∈ made, t.last ≤ s.last) :
    ∀ t ∈ widthPieces width s made rounds offset, t.last ≤ s.last := by
  have hreverse : ∀ {pieces : List Selection}, (∀ t ∈ pieces, t.last ≤ s.last) →
      ∀ t ∈ pieces.reverse, t.last ≤ s.last := by
    intro pieces h t ht
    exact h t (List.mem_reverse.1 ht)
  induction rounds generalizing made offset with
  | zero => exact hreverse hmade
  | succ rounds ih =>
      by_cases hend : s.last < offset
      · rw [widthPieces, if_pos hend]
        exact hreverse hmade
      · have hmore : ∀ t ∈ Selection.withDirection s.isBackward
            ⟨offset, min s.last (wrap (offset + width - 1))⟩ :: made, t.last ≤ s.last := by
          intro t ht
          rcases List.mem_cons.1 ht with rfl | ht
          · rw [Selection.last_withDirection, Selection.last_le_iff]
            exact ⟨Nat.le_of_not_lt hend, Nat.min_le_left _ _⟩
          · exact hmade t ht
        rw [widthPieces, if_neg hend]
        simp only
        split_ifs
        · exact hreverse hmore
        · exact ih hmore

theorem Valid.splitWidth (h : set.Valid length) (width : Nat) :
    (set.splitWidth width).Valid length := by
  apply valid_replaceEach
  intro s hs t ht
  have hnone : ∀ t ∈ ([] : List Selection), t.last ≤ s.last := by simp
  have hpiece := last_le_of_mem_widthPieces hnone t ht
  exact Nat.le_trans hpiece (h.last_le s hs)

/-! ## Pieces between delimiters -/

/-- Without delimiters the whole range is left. -/
theorem gaps_nil (start stop : Nat) :
    gaps start stop [] = if stop ≤ start then [] else [⟨start, stop⟩] := by
  by_cases h : stop ≤ start <;> simp [gaps, Range.isEmpty, h]

/-- The first delimiter ends the first part, and the others follow behind it. -/
theorem gaps_cons (start stop : Nat) (delimiter : Range) (delimiters : List Range) :
    gaps start stop (delimiter :: delimiters) =
      (if delimiter.start ≤ start then [] else [⟨start, delimiter.start⟩]) ++
        gaps delimiter.stop stop delimiters := by
  by_cases h : delimiter.start ≤ start <;> simp [gaps, Range.isEmpty, h]

/-- The parts between delimiters are not empty and lie within a file that holds the
delimiters. -/
theorem mem_gaps {start stop : Nat} {delimiters : List Range} {r : Range}
    (hr : r ∈ gaps start stop delimiters) (hstop : stop ≤ length)
    (hdelimiters : ∀ d ∈ delimiters, d.start ≤ length) :
    r.start < r.stop ∧ r.stop ≤ length := by
  induction delimiters generalizing start with
  | nil =>
      rw [gaps_nil] at hr
      split_ifs at hr with hempty
      · cases hr
      · rw [List.mem_singleton.1 hr]
        exact ⟨Nat.lt_of_not_le hempty, hstop⟩
  | cons d delimiters ih =>
      rw [gaps_cons, List.mem_append] at hr
      rcases hr with hr | hr
      · split_ifs at hr with hempty
        · cases hr
        · rw [List.mem_singleton.1 hr]
          exact ⟨Nat.lt_of_not_le hempty, hdelimiters d List.mem_cons_self⟩
      · exact ih hr fun d hd => hdelimiters d (List.mem_cons_of_mem _ hd)

/-- The matches that a search of a version finds are not empty and lie within it. -/
theorem mem_toList_over (h : rope.Sound) {pattern : Pattern} {range r : Range}
    (hr : r ∈ (Matches.over rope pattern range).toList) :
    r.start < r.stop ∧ r.stop ≤ rope.length := by
  rw [h.toList_over] at hr
  rcases Pattern.mem_matchesIn hr with ⟨hproper, -, -, -, hwithin⟩
  rw [h.length_eq]
  exact ⟨hproper, hwithin⟩

theorem Valid.splitNull? (h : set.Valid rope.length) (hrope : rope.Sound) {run : Nat}
    {refined : SelectionSet} (hok : set.splitNull? run rope = .ok refined) :
    refined.Valid rope.length := by
  apply valid_refineEach? _ hok
  intro s hs t ht
  rw [nullPieces] at ht
  split_ifs at ht with hempty
  · rw [List.mem_singleton.1 ht]
    exact h.last_le s hs
  · rcases List.mem_map.1 ht with ⟨r, hr, rfl⟩
    have hdelimiters : ∀ d ∈ (Matches.over rope (List.replicate (max run 1) (.literal 0))
        (s.covered rope.length)).toList, d.start ≤ rope.length := by
      intro d hd
      rcases mem_toList_over hrope hd with ⟨hproper, hwithin⟩
      omega
    rcases mem_gaps hr (s.stop_covered_le rope.length) hdelimiters with ⟨hproper, hwithin⟩
    have hlast := Selection.last_ofRange s.isBackward hproper
    omega

/-! ## Matches -/

theorem valid_splitPattern? (hrope : rope.Sound) {pattern : Pattern}
    {refined : SelectionSet} (hok : set.splitPattern? pattern rope = .ok refined) :
    refined.Valid rope.length := by
  apply valid_refineEach? _ hok
  intro s _ t ht
  rcases List.mem_map.1 ht with ⟨r, hr, rfl⟩
  rcases mem_toList_over hrope hr with ⟨hproper, hwithin⟩
  have hlast := Selection.last_ofRange s.isBackward hproper
  omega

theorem valid_selectMatching? (hrope : rope.Sound) {pattern : Pattern} {ranges : List Range}
    {found : SelectionSet} (hok : set.selectMatching? pattern rope ranges = .ok found) :
    found.Valid rope.length := by
  rw [selectMatching?] at hok
  split_ifs at hok
  cases hok
  apply valid_ofList
  intro t ht
  rcases List.mem_map.1 ht with ⟨r, hr, rfl⟩
  rcases List.mem_flatMap.1 hr with ⟨range, -, hr⟩
  rcases mem_toList_over hrope hr with ⟨hproper, hwithin⟩
  have hlast := Selection.last_ofRange false hproper
  omega

end SelectionSet

end HexEditor
