import HexEditor.Proofs.Selection.Normal
import HexEditor.Proofs.Selection.Refine

/-!
# Two ways to the matches below a set

The matches of a pattern below a set of selections are reached in two ways.  Every selection can
be reduced to the matches below it, and the matches inside the ranges of covered bytes can be
selected anew.  Both give the greedy matches below one selection after the other, and both are
refused when there is none.

The two ways differ in the directions and in the main selection.  Reducing keeps both with the old
selections: the main one becomes the first match below itself.  Selecting anew looks for the first
match that begins no earlier than the old main selection.

Main results:

- Definition `SelectionSet.matchesBelow`: the matches below selections.
- Theorem `SelectionSet.selectMatching?_eq`: what is selected inside any ranges in order.
- Theorem `SelectionSet.splitPattern?_eq`: what the selections are reduced to.
- Theorem `SelectionSet.selectMatching?_agrees`: the two ways compared.
-/

namespace HexEditor

namespace Pattern

variable {pattern : Pattern} {bytes : Bytes}

/-- The empty pattern has no matches. -/
theorem matchesIn_nil (bytes : Bytes) (range : Range) : matchesIn [] bytes range = [] := by
  simp [matchesIn, greedy]

/-- An empty range holds no matches. -/
theorem matchesIn_of_isEmpty {range : Range} (h : range.isEmpty = true) :
    matchesIn pattern bytes range = [] := by
  rw [List.eq_nil_iff_forall_not_mem]
  intro r hr
  rcases mem_matchesIn hr with ⟨hproper, -, hstart, hstop, -⟩
  have hempty : range.stop ≤ range.start := of_decide_eq_true h
  omega

theorem flatMap_matchesIn_filter (pattern : Pattern) (bytes : Bytes) (ranges : List Range) :
    (ranges.filter fun r => !r.isEmpty).flatMap (matchesIn pattern bytes) =
      ranges.flatMap (matchesIn pattern bytes) := by
  induction ranges with
  | nil => rfl
  | cons range ranges ih =>
      by_cases hempty : range.isEmpty = true
      · simp [hempty, ih, matchesIn_of_isEmpty hempty]
      · simp [hempty, ih]

/-- The matches inside ranges in order are in order. -/
theorem pairwise_flatMap_matchesIn (pattern : Pattern) (bytes : Bytes) {ranges : List Range}
    (h : ranges.Pairwise fun r t => r.stop ≤ t.start) :
    (ranges.flatMap (matchesIn pattern bytes)).Pairwise fun r t => r.stop ≤ t.start := by
  rw [List.pairwise_flatMap]
  refine ⟨fun range _ => pairwise_matchesIn pattern bytes range, h.imp ?_⟩
  intro range range' hrange r hr t ht
  rcases mem_matchesIn hr with ⟨-, -, -, hstop, -⟩
  rcases mem_matchesIn ht with ⟨-, -, hstart, -, -⟩
  omega

end Pattern

namespace SelectionSet

variable {set : SelectionSet} {rope : Rope} {pattern : Pattern}

/-- The first and the last offset of every selection. -/
def ends (set : SelectionSet) : List (Nat × Nat) :=
  set.selections.map fun s => (s.first, s.last)

/-- The greedy matches of a pattern below selections, one selection after the other. -/
def matchesBelow (pattern : Pattern) (rope : Rope) (selections : List Selection) : List Range :=
  selections.flatMap fun s => pattern.matchesIn rope.toBytes (s.covered rope.length)

/-! ## Main selections -/

/-- The main selection of a valid set stands between the earlier and the later ones. -/
theorem Valid.selections_eq {length : Nat} (h : set.Valid length) :
    set.selections = set.selections.take set.main ++
      set.mainSelection :: set.selections.drop (set.main + 1) := by
  have hlt : set.main < set.selections.length := h.main_lt
  have hmain : set.mainSelection = set.selections[set.main] := by
    simp [mainSelection, hlt]
  rw [hmain, ← List.drop_eq_getElem_cons, List.take_append_drop]

/-- The first entry that meets a condition is at the index where it is found, and otherwise the
index of the first entry is used. -/
theorem getElem?_getD_findIdx? {α : Type} (things : List α) (p : α → Bool) :
    things[(things.findIdx? p).getD 0]? = (things.find? p).or things.head? := by
  rw [List.find?_eq_bind_findIdx?_getElem?]
  cases hfound : things.findIdx? p with
  | none => simp [List.head?_eq_getElem?]
  | some i =>
      have hi := (List.findIdx?_eq_some_iff_findIdx_eq.1 hfound).1
      simp [hi]

/-- At the length of the front stands the first entry behind it, and the last one if there is
none. -/
theorem getElem?_min_length {α : Type} (front rest : List α) :
    (front ++ rest)[min front.length ((front ++ rest).length - 1)]? =
      rest.head?.or (front ++ rest).getLast? := by
  cases rest with
  | nil =>
      rw [List.append_nil, List.getLast?_eq_getElem?, Nat.min_eq_right (Nat.sub_le _ _)]
      rfl
  | cons x rest =>
      have hmin : min front.length ((front ++ x :: rest).length - 1) = front.length := by
        rw [List.length_append, List.length_cons]
        omega
      rw [hmin]
      simp

/-! ## Results -/

/-- A search is refused if nothing was found, and otherwise it gives the set of what was found,
with the given match as the main one. -/
structure Yields (result : Except SelectionError SelectionSet) (refusal : SelectionError)
    (found : List Range) (main : Option Range) : Prop where
  /-- It is refused just when nothing was found. -/
  refused_iff : result = .error refusal ↔ found = []
  /-- What was found is neither merged nor put into another order. -/
  selects : found ≠ [] → ∃ set, result = .ok set ∧
    set.ends = found.map (fun r => (r.start, r.stop - 1)) ∧ found[set.main]? = main

variable {result result' : Except SelectionError SelectionSet}
  {refusal refusal' : SelectionError} {found : List Range} {main main' : Option Range}

/-- A result that depends on whether something was found. -/
theorem yields_ite {set : SelectionSet} (hresult : result =
      if found = [] then .error refusal else .ok set)
    (hends : set.ends = found.map fun r => (r.start, r.stop - 1))
    (hmain : found[set.main]? = main) : Yields result refusal found main := by
  constructor
  · rw [hresult]
    split_ifs with hnil <;> simp [hnil]
  · intro hfound
    exact ⟨set, by rw [hresult, if_neg hfound], hends, hmain⟩

/-- Searches that find the same agree up to the main selection and the directions. -/
theorem Yields.ends_eq (h : Yields result refusal found main)
    (h' : Yields result' refusal' found main') :
    result.toOption.map ends = result'.toOption.map ends := by
  by_cases hfound : found = []
  · rw [h.refused_iff.2 hfound, h'.refused_iff.2 hfound]
    rfl
  · rcases h.selects hfound with ⟨set, hset, hends, -⟩
    rcases h'.selects hfound with ⟨set', hset', hends', -⟩
    simp [hset, hset', Except.toOption, hends, hends']

theorem ends_map_ofRange {ranges : List Range} (h : ∀ r ∈ ranges, r.start < r.stop)
    (backward : Bool) (main : Nat) :
    ends ⟨ranges.map (.ofRange · backward), main⟩ =
      ranges.map fun r => (r.start, r.stop - 1) := by
  rw [ends, List.map_map]
  apply List.map_congr_left
  intro r hr
  simp [Selection.first_ofRange backward (h r hr), Selection.last_ofRange backward (h r hr)]

/-! ## Selecting matches -/

theorem lt_of_mem_flatMap_matchesIn {bytes : Bytes} {ranges : List Range} {r : Range}
    (hr : r ∈ ranges.flatMap (pattern.matchesIn bytes)) : r.start < r.stop := by
  rcases List.mem_flatMap.1 hr with ⟨range, -, hr⟩
  exact (Pattern.mem_matchesIn hr).1

/-- Selecting the matches inside ranges in order.  They are not merged, and the main selection is
found among them. -/
theorem selectMatching?_eq (hrope : rope.Sound) {ranges : List Range}
    (hordered : (ranges.filter fun r => !r.isEmpty).Pairwise fun r t => r.stop ≤ t.start) :
    set.selectMatching? pattern rope ranges =
      if ranges.flatMap (pattern.matchesIn rope.toBytes) = [] then .error .notFound
      else .ok ⟨(ranges.flatMap (pattern.matchesIn rope.toBytes)).map (.ofRange · false),
        ((ranges.flatMap (pattern.matchesIn rope.toBytes)).findIdx? fun r =>
          set.mainSelection.first ≤ r.start).getD 0⟩ := by
  have hfound : ((ranges.filter fun r => !r.isEmpty).flatMap fun r =>
      (Matches.over rope pattern r).toList) = ranges.flatMap (pattern.matchesIn rope.toBytes) := by
    simp only [hrope.toList_over]
    exact Pattern.flatMap_matchesIn_filter pattern rope.toBytes ranges
  have hpairwise := Pattern.pairwise_flatMap_matchesIn pattern rope.toBytes hordered
  rw [Pattern.flatMap_matchesIn_filter] at hpairwise
  unfold selectMatching?
  rw [hfound]
  generalize hmatches : ranges.flatMap (pattern.matchesIn rope.toBytes) = found at *
  have hproper : ∀ r ∈ found, r.start < r.stop := by
    intro r hr
    rw [← hmatches] at hr
    exact lt_of_mem_flatMap_matchesIn hr
  by_cases hnil : found = []
  · simp [hnil]
  · have hpos := List.length_pos_iff.2 hnil
    have hmain : (found.findIdx? fun r => set.mainSelection.first ≤ r.start).getD 0 <
        (found.map (Selection.ofRange · false)).length := by
      rw [List.length_map]
      cases hindex : found.findIdx? fun r => set.mainSelection.first ≤ r.start with
      | none => exact hpos
      | some i => exact (List.findIdx?_eq_some_iff_findIdx_eq.1 hindex).1
    simp only [List.isEmpty_iff, hnil, if_false]
    rw [ofList_of_pairwise (Selection.pairwise_map_ofRange hproper hpairwise false) hmain]

/-! ## Reducing to matches -/

/-- Reducing the selections of a valid set to the matches below them. -/
theorem splitPattern?_eq (hrope : rope.Sound) (hset : set.Valid rope.length) :
    set.splitPattern? pattern rope =
      if matchesBelow pattern rope set.selections = [] then .error .noMatchInside
      else .ok ⟨set.selections.flatMap (matchPieces pattern rope),
        min (matchesBelow pattern rope (set.selections.take set.main)).length
          ((matchesBelow pattern rope set.selections).length - 1)⟩ := by
  have hpieces : ∀ s : Selection, matchPieces pattern rope s =
      (pattern.matchesIn rope.toBytes (s.covered rope.length)).map (.ofRange · s.isBackward) := by
    intro s
    rw [matchPieces, hrope.toList_over]
  have hlength : ∀ selections : List Selection,
      (selections.flatMap (matchPieces pattern rope)).length =
        (matchesBelow pattern rope selections).length := by
    intro selections
    simp [matchesBelow, hpieces, List.length_flatMap]
  have hrefine := refineEach?_eq (f := matchPieces pattern rope) hset.separate
    (fun s _ => by
      rw [hpieces]
      exact Selection.pairwise_map_ofRange (fun r hr => (Pattern.mem_matchesIn hr).1)
        (Pattern.pairwise_matchesIn _ _ _) s.isBackward)
    (fun s hs t ht => by
      rw [hpieces] at ht
      rcases List.mem_map.1 ht with ⟨r, hr, rfl⟩
      rcases Pattern.mem_matchesIn hr with ⟨hproper, -, hstart, hstop, -⟩
      exact Selection.ofRange_within (hset.last_le s hs) hproper hstart hstop s.isBackward)
    .noMatchInside
  rw [splitPattern?, hrefine, hlength, hlength]
  congr 1
  rw [← List.length_eq_zero_iff, hlength, List.length_eq_zero_iff]

theorem ends_splitPattern (hrope : rope.Sound) (selections : List Selection) (main : Nat) :
    ends ⟨selections.flatMap (matchPieces pattern rope), main⟩ =
      (matchesBelow pattern rope selections).map fun r => (r.start, r.stop - 1) := by
  rw [ends, matchesBelow, List.map_flatMap, List.map_flatMap]
  apply List.flatMap_congr
  intro s _
  rw [matchPieces, hrope.toList_over]
  exact ends_map_ofRange (fun r hr => (Pattern.mem_matchesIn hr).1) s.isBackward main

/-! ## The two ways compared -/

/-- The matches below a valid set can be selected, and its selections can be reduced to them.  Both
succeed for the same patterns and give the same matches, in order and not merged; there are none
of the empty pattern.  The main selection is chosen in different ways, and the first of them is
the same for matches inside any ranges in order. -/
theorem selectMatching?_agrees (hrope : rope.Sound) (hset : set.Valid rope.length)
    (pattern : Pattern) :
    (set.selectMatching? pattern rope (set.coveredRanges rope.length)).toOption.map ends =
        (set.splitPattern? pattern rope).toOption.map ends ∧
      Yields (set.splitPattern? pattern rope) .noMatchInside
        (matchesBelow pattern rope set.selections)
        ((matchesBelow pattern rope [set.mainSelection]).head?.or
          ((matchesBelow pattern rope (set.selections.drop (set.main + 1))).head?.or
            (matchesBelow pattern rope set.selections).getLast?)) ∧
      (∀ ranges : List Range,
        (ranges.filter fun r => !r.isEmpty).Pairwise (fun r t => r.stop ≤ t.start) →
        Yields (set.selectMatching? pattern rope ranges) .notFound
          (ranges.flatMap (pattern.matchesIn rope.toBytes))
          (((ranges.flatMap (pattern.matchesIn rope.toBytes)).find? fun r =>
              set.mainSelection.first ≤ r.start).or
            (ranges.flatMap (pattern.matchesIn rope.toBytes)).head?)) ∧
      (matchesBelow pattern rope set.selections).Pairwise (fun r t => r.stop ≤ t.start) ∧
      matchesBelow [] rope set.selections = [] := by
  have hranges : (set.coveredRanges rope.length).Pairwise fun r t => r.stop ≤ t.start := by
    rw [coveredRanges, List.pairwise_map]
    exact hset.separate.imp Selection.stop_covered_le_start
  have hbelow : (set.coveredRanges rope.length).flatMap (pattern.matchesIn rope.toBytes) =
      matchesBelow pattern rope set.selections := by
    rw [coveredRanges, List.flatMap_map]
    rfl
  have hselect : ∀ ranges : List Range,
      (ranges.filter fun r => !r.isEmpty).Pairwise (fun r t => r.stop ≤ t.start) →
      Yields (set.selectMatching? pattern rope ranges) .notFound
        (ranges.flatMap (pattern.matchesIn rope.toBytes))
        (((ranges.flatMap (pattern.matchesIn rope.toBytes)).find? fun r =>
            set.mainSelection.first ≤ r.start).or
          (ranges.flatMap (pattern.matchesIn rope.toBytes)).head?) := by
    intro ranges hordered
    exact yields_ite (selectMatching?_eq hrope hordered)
      (ends_map_ofRange (fun r => lt_of_mem_flatMap_matchesIn) false _)
      (getElem?_getD_findIdx? _ _)
  have hsplit : Yields (set.splitPattern? pattern rope) .noMatchInside
      (matchesBelow pattern rope set.selections)
      ((matchesBelow pattern rope [set.mainSelection]).head?.or
        ((matchesBelow pattern rope (set.selections.drop (set.main + 1))).head?.or
          (matchesBelow pattern rope set.selections).getLast?)) := by
    have hparts : matchesBelow pattern rope set.selections =
        matchesBelow pattern rope (set.selections.take set.main) ++
          (matchesBelow pattern rope [set.mainSelection] ++
            matchesBelow pattern rope (set.selections.drop (set.main + 1))) := by
      conv_lhs => rw [hset.selections_eq]
      simp [matchesBelow]
    have hmain := getElem?_min_length (matchesBelow pattern rope (set.selections.take set.main))
      (matchesBelow pattern rope [set.mainSelection] ++
        matchesBelow pattern rope (set.selections.drop (set.main + 1)))
    rw [← hparts, List.head?_append, Option.or_assoc] at hmain
    exact yields_ite (splitPattern?_eq hrope hset) (ends_splitPattern hrope _ _) hmain
  refine ⟨?_, hsplit, hselect, ?_, by simp [matchesBelow, Pattern.matchesIn_nil]⟩
  · have hcovered := hselect _ (hranges.filter _)
    rw [hbelow] at hcovered
    exact hcovered.ends_eq hsplit
  · rw [← hbelow]
    exact Pattern.pairwise_flatMap_matchesIn _ _ hranges

/-- There is no match below the main selection or behind it.  Then the last match becomes the main
one of those to which the selections are reduced, and the first of those that are selected. -/
theorem selectMatching?_agrees_behind :
    ∃ selected split,
      (⟨[⟨3, 0⟩, .point 4], 1⟩ : SelectionSet).selectMatching? [.literal 1, .wildcard]
          (Rope.ofBytes [1, 2, 1, 3, 5]) (coveredRanges ⟨[⟨3, 0⟩, .point 4], 1⟩ 5) =
        .ok selected ∧
      (⟨[⟨3, 0⟩, .point 4], 1⟩ : SelectionSet).splitPattern? [.literal 1, .wildcard]
          (Rope.ofBytes [1, 2, 1, 3, 5]) = .ok split ∧
      selected.ends = [(0, 1), (2, 3)] ∧ split.ends = [(0, 1), (2, 3)] ∧
      [⟨0, 2⟩, ⟨2, 4⟩][selected.main]? = some (⟨0, 2⟩ : Range) ∧
      [⟨0, 2⟩, ⟨2, 4⟩][split.main]? = some (⟨2, 4⟩ : Range) := by
  have hsound := Rope.sound_ofBytes [1, 2, 1, 3, 5]
  have hlength : (Rope.ofBytes [1, 2, 1, 3, 5]).length = 5 := Rope.length_ofBytes _
  have hvalid : SelectionSet.Valid ⟨[⟨3, 0⟩, .point 4], 1⟩
      (Rope.ofBytes [1, 2, 1, 3, 5]).length := by
    rw [hlength]
    exact ⟨by decide, by decide, by decide⟩
  rcases selectMatching?_agrees hsound hvalid [.literal 1, .wildcard] with
    ⟨-, hsplit, hselect, -, -⟩
  have hselected := hselect (coveredRanges ⟨[⟨3, 0⟩, .point 4], 1⟩ 5) (by decide)
  simp only [matchesBelow, hlength, Rope.toBytes_ofBytes] at hsplit hselected
  rcases hselected.selects (by decide) with ⟨selected, hselected, hends, hmain⟩
  rcases hsplit.selects (by decide) with ⟨split, hsplit, hends', hmain'⟩
  exact ⟨selected, split, hselected, hsplit, hends, hends', hmain, hmain'⟩

end SelectionSet

end HexEditor
