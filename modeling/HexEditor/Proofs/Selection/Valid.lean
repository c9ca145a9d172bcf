import HexEditor.Selection.Set
import Mathlib.Tactic.Common

/-!
# Valid sets of selections

A set of selections is valid for a file of some length if its selections are in order
and share no offset, if the index of the main selection points at one of them, and if
no selection goes beyond the end of the file.  The offset behind the last byte still
counts as inside.

Every set that `SelectionSet.ofList` makes is in order, because merging passes over the
selections sorted by their first offsets: each one either begins behind all those
merged so far or goes into the latest of them.  Other operations build on this one.

Main results:

- Definition `SelectionSet.Valid`.
- Theorem `SelectionSet.Merged.mergeNext`: one step of merging.
- Theorem `SelectionSet.valid_ofList`: sets are valid for every length that bounds the
  selections they are made of.
- Theorems `SelectionSet.valid_clamped`, `SelectionSet.valid_moveCursors`, and those in
  the namespace `SelectionSet.Valid`: the operations of a set lead to valid sets.
-/

namespace HexEditor

namespace Selection

/-! ## Ends of a selection -/

variable {s t : Selection} {length : Nat}

theorem first_le_last (s : Selection) : s.first ≤ s.last :=
  Nat.le_trans (Nat.min_le_left _ _) (Nat.le_max_left _ _)

theorem last_le_iff : s.last ≤ length ↔ s.anchor ≤ length ∧ s.cursor ≤ length :=
  Nat.max_le

@[simp] theorem first_point (offset : Nat) : (point offset).first = offset :=
  Nat.min_self offset

@[simp] theorem last_point (offset : Nat) : (point offset).last = offset :=
  Nat.max_self offset

theorem first_oriented (backward : Bool) {low high : Nat} (h : low ≤ high) :
    (oriented backward low high).first = low := by
  cases backward
  · exact Nat.min_eq_left h
  · exact Nat.min_eq_right h

@[simp] theorem last_oriented (backward : Bool) (low high : Nat) :
    (oriented backward low high).last = max low high := by
  cases backward
  · rfl
  · exact Nat.max_comm high low

theorem isBackward_oriented (backward : Bool) {low high : Nat} (h : low ≤ high)
    (hone : backward = true → low < high) :
    (oriented backward low high).isBackward = backward := by
  cases backward with
  | false => exact decide_eq_false (Nat.not_lt.2 h)
  | true => exact decide_eq_true (hone rfl)

theorem first_lt_last_of_isBackward (h : s.isBackward = true) : s.first < s.last := by
  have hbackward : s.cursor < s.anchor := of_decide_eq_true h
  simp only [first, last]
  omega

@[simp] theorem last_withDirection (backward : Bool) (s : Selection) :
    (s.withDirection backward).last = s.last := by
  rw [withDirection, last_oriented, Nat.max_eq_right s.first_le_last]

theorem first_cover (s t : Selection) : (s.cover t).first = min s.first t.first := by
  have hs := s.first_le_last
  rw [cover, first_oriented]
  omega

theorem last_cover (s t : Selection) : (s.cover t).last = max s.last t.last := by
  have hs := s.first_le_last
  rw [cover, last_oriented]
  omega

/-- Of two selections that share no offset, the one that begins no later lies in front
of the other. -/
theorem last_lt_first (hfirst : s.first ≤ t.first) (h : s.overlaps t = false) :
    s.last < t.first := by
  have ht := t.first_le_last
  simp only [overlaps, Bool.and_eq_false_iff, decide_eq_false_iff_not] at h
  omega

end Selection

namespace SelectionSet

/-! ## Merging -/

/-- What holds of the selections merged so far, latest first, when those still to come
begin no earlier than the given offset. -/
structure Merged (merged : List (Selection × Bool)) (offset : Nat) : Prop where
  /-- They are in order and share no offset. -/
  separate : merged.Pairwise fun s t => t.1.last < s.1.first
  /-- They begin no later. -/
  below : ∀ s ∈ merged, s.1.first ≤ offset

/-- The next selection goes into the latest one or begins behind all of them. -/
theorem Merged.mergeNext {merged : List (Selection × Bool)} {offset : Nat}
    (h : Merged merged offset) {next : Selection × Bool} (hnext : offset ≤ next.1.first) :
    Merged (SelectionSet.mergeNext merged next) next.1.first := by
  rcases merged with _ | ⟨latest, earlier⟩
  · exact ⟨List.pairwise_singleton _ _, by simp [SelectionSet.mergeNext]⟩
  · rcases h with ⟨hseparate, hbelow⟩
    rcases List.pairwise_cons.1 hseparate with ⟨hlatest, hearlier⟩
    have hfirst : latest.1.first ≤ next.1.first :=
      Nat.le_trans (hbelow latest List.mem_cons_self) hnext
    by_cases hoverlap : latest.1.overlaps next.1 = true
    · have hcover : (latest.1.cover next.1).first = latest.1.first := by
        rw [Selection.first_cover, Nat.min_eq_left hfirst]
      rw [SelectionSet.mergeNext, if_pos hoverlap]
      constructor
      · rw [List.pairwise_cons]
        refine ⟨?_, hearlier⟩
        intro s hs
        rw [hcover]
        exact hlatest s hs
      · intro s hs
        rcases List.mem_cons.1 hs with rfl | hs
        · simpa [hcover] using hfirst
        · exact Nat.le_trans (hbelow s (List.mem_cons_of_mem _ hs)) hnext
    · have hbehind : latest.1.last < next.1.first :=
        Selection.last_lt_first hfirst (Bool.eq_false_iff.2 hoverlap)
      have hwhole := latest.1.first_le_last
      rw [SelectionSet.mergeNext, if_neg hoverlap]
      constructor
      · rw [List.pairwise_cons]
        refine ⟨?_, hseparate⟩
        intro s hs
        rcases List.mem_cons.1 hs with rfl | hs
        · exact hbehind
        · have hs' := hlatest s hs
          omega
      · intro s hs
        rcases List.mem_cons.1 hs with rfl | hs
        · exact Nat.le_refl _
        · exact Nat.le_trans (hbelow s hs) hnext

theorem last_le_of_mem_mergeNext {merged : List (Selection × Bool)}
    {next : Selection × Bool} {length : Nat} (h : ∀ s ∈ merged, s.1.last ≤ length)
    (hnext : next.1.last ≤ length) : ∀ s ∈ mergeNext merged next, s.1.last ≤ length := by
  intro s hs
  rcases merged with _ | ⟨latest, earlier⟩
  · rw [mergeNext, List.mem_singleton] at hs
    rw [hs]
    exact hnext
  · rw [mergeNext] at hs
    split_ifs at hs with hoverlap
    · rcases List.mem_cons.1 hs with rfl | hs
      · rw [Selection.last_cover]
        exact Nat.max_le.2 ⟨h latest List.mem_cons_self, hnext⟩
      · exact h s (List.mem_cons_of_mem _ hs)
    · rcases List.mem_cons.1 hs with rfl | hs
      · exact hnext
      · exact h s hs

/-- The main selection stays marked. -/
theorem any_mergeNext (merged : List (Selection × Bool)) (next : Selection × Bool) :
    (mergeNext merged next).any (·.2) = (next.2 || merged.any (·.2)) := by
  rcases merged with _ | ⟨latest, earlier⟩
  · rfl
  · rw [mergeNext]
    split_ifs with hoverlap
    · simp only [List.any_cons, Bool.or_comm latest.2, Bool.or_assoc]
    · rfl

/-- Merging selections that are sorted by their first offsets. -/
theorem Merged.foldl {ordered merged : List (Selection × Bool)}
    (hsorted : ordered.Pairwise fun s t => s.1.first ≤ t.1.first) {offset : Nat}
    (h : Merged merged offset) (hbehind : ∀ s ∈ ordered, offset ≤ s.1.first) :
    (ordered.foldl SelectionSet.mergeNext merged).Pairwise
      fun s t => t.1.last < s.1.first := by
  induction ordered generalizing merged offset with
  | nil => exact h.separate
  | cons next ordered ih =>
      rcases List.pairwise_cons.1 hsorted with ⟨hnext, hrest⟩
      have hstep := h.mergeNext (hbehind next List.mem_cons_self)
      exact ih hrest hstep hnext

theorem last_le_of_mem_foldl_mergeNext {ordered merged : List (Selection × Bool)}
    {length : Nat} (hordered : ∀ s ∈ ordered, s.1.last ≤ length)
    (hmerged : ∀ s ∈ merged, s.1.last ≤ length) :
    ∀ s ∈ ordered.foldl mergeNext merged, s.1.last ≤ length := by
  induction ordered generalizing merged with
  | nil => exact hmerged
  | cons next ordered ih =>
      apply ih
      · intro s hs
        exact hordered s (List.mem_cons_of_mem _ hs)
      · exact last_le_of_mem_mergeNext hmerged (hordered next List.mem_cons_self)

theorem any_foldl_mergeNext (ordered merged : List (Selection × Bool)) :
    (ordered.foldl mergeNext merged).any (·.2) =
      (ordered.any (·.2) || merged.any (·.2)) := by
  induction ordered generalizing merged with
  | nil => rfl
  | cons next ordered ih =>
      rw [List.foldl_cons, ih, any_mergeNext, List.any_cons, Bool.or_left_comm, Bool.or_assoc]

/-! ## Making a set -/

/-- The selections a set is made of, sorted by their first offsets.  Each of them is
accompanied by whether it is the main one. -/
def arranged (selections : List Selection) (main : Nat) : List (Selection × Bool) :=
  (selections.zipIdx.map fun (s, i) => (s, i == min main (selections.length - 1))).mergeSort
    fun a b => a.1.first ≤ b.1.first

theorem ofList_eq {selections : List Selection} (main : Nat) (h : selections ≠ []) :
    ofList selections main =
      ⟨((arranged selections main).foldl mergeNext []).reverse.map (·.1),
        ((arranged selections main).foldl mergeNext []).reverse.findIdx (·.2)⟩ := by
  rw [ofList, if_neg (mt List.isEmpty_iff.1 h)]
  rfl

theorem arranged_sorted (selections : List Selection) (main : Nat) :
    (arranged selections main).Pairwise fun s t => s.1.first ≤ t.1.first := by
  have hsort : (arranged selections main).Pairwise fun s t =>
      decide (s.1.first ≤ t.1.first) = true := by
    apply List.pairwise_mergeSort
    · intro a b c hab hbc
      simp only [decide_eq_true_eq] at hab hbc ⊢
      exact Nat.le_trans hab hbc
    · intro a b
      simp only [Bool.or_eq_true, decide_eq_true_eq]
      exact Nat.le_total _ _
  exact hsort.imp fun hle => of_decide_eq_true hle

theorem mem_of_mem_arranged {selections : List Selection} {main : Nat}
    {s : Selection × Bool} (h : s ∈ arranged selections main) : s.1 ∈ selections := by
  rw [arranged, List.mem_mergeSort, List.mem_map] at h
  rcases h with ⟨⟨t, i⟩, ht, rfl⟩
  exact List.fst_mem_of_mem_zipIdx ht

theorem any_arranged {selections : List Selection} (main : Nat) (h : selections ≠ []) :
    (arranged selections main).any (·.2) = true := by
  have hlt : min main (selections.length - 1) < selections.length := by
    have hpos := List.length_pos_iff.2 h
    omega
  rw [List.any_eq_true]
  refine ⟨(selections[min main (selections.length - 1)], true), ?_, rfl⟩
  rw [arranged, List.mem_mergeSort, List.mem_map]
  refine ⟨(selections[min main (selections.length - 1)], min main (selections.length - 1)),
    ?_, by simp⟩
  rw [List.mem_zipIdx_iff_getElem?, List.getElem?_eq_getElem hlt]

/-! ## Validity -/

/-- The set is in order, without overlaps, and within a file of the given length. -/
structure Valid (set : SelectionSet) (length : Nat) : Prop where
  /-- The selections are in order and share no offset. -/
  separate : set.selections.Pairwise fun s t => s.last < t.first
  /-- The main selection is one of them. -/
  main_lt : set.main < set.size
  /-- No selection goes beyond the end. -/
  last_le : ∀ s ∈ set.selections, s.last ≤ length

namespace Valid

variable {set : SelectionSet} {length : Nat}

theorem size_pos (h : set.Valid length) : 0 < set.size :=
  Nat.lt_of_le_of_lt (Nat.zero_le _) h.main_lt

theorem getElem?_main (h : set.Valid length) :
    set.selections[set.main]? = some set.mainSelection := by
  have hmain := h.main_lt
  rw [size] at hmain
  rw [mainSelection, List.getD_eq_getElem?_getD, List.getElem?_eq_getElem hmain, Option.getD_some]

theorem mainSelection_mem (h : set.Valid length) : set.mainSelection ∈ set.selections :=
  List.mem_of_getElem? h.getElem?_main

theorem mainCursor_le (h : set.Valid length) : set.mainSelection.cursor ≤ length :=
  (Selection.last_le_iff.1 (h.last_le _ h.mainSelection_mem)).2

/-- A valid set is sorted by the first offsets. -/
theorem sorted (h : set.Valid length) :
    set.selections.Pairwise fun s t => s.first < t.first := by
  apply h.separate.imp
  intro s t hst
  exact Nat.lt_of_le_of_lt s.first_le_last hst

end Valid

variable {set : SelectionSet} {length : Nat}

theorem valid_start (length : Nat) : start.Valid length := by
  refine ⟨List.pairwise_singleton _ _, Nat.one_pos, ?_⟩
  intro s hs
  rw [List.mem_singleton.1 hs, Selection.last_point]
  exact Nat.zero_le length

/-- The selections of a set that is made of any are in order and share no offset. -/
theorem pairwise_ofList (selections : List Selection) (main : Nat) :
    (ofList selections main).selections.Pairwise fun s t => s.last < t.first := by
  by_cases hne : selections = []
  · rw [hne]
    exact List.pairwise_singleton _ _
  · have hmerged : Merged [] 0 := ⟨List.Pairwise.nil, by simp⟩
    have hseparate := hmerged.foldl (arranged_sorted selections main) fun s _ => Nat.zero_le _
    rw [ofList_eq main hne, List.pairwise_map, List.pairwise_reverse]
    exact hseparate

theorem main_lt_size_ofList (selections : List Selection) (main : Nat) :
    (ofList selections main).main < (ofList selections main).size := by
  by_cases hne : selections = []
  · rw [hne]
    exact Nat.one_pos
  · have hany := any_foldl_mergeNext (arranged selections main) []
    rw [any_arranged main hne, Bool.true_or] at hany
    rw [ofList_eq main hne, size, List.length_map, List.findIdx_lt_length]
    simpa using hany

/-- A set that is made of any selections is valid for every length that bounds them. -/
theorem valid_ofList {selections : List Selection} (main : Nat)
    (h : ∀ s ∈ selections, s.last ≤ length) : (ofList selections main).Valid length := by
  refine ⟨pairwise_ofList selections main, main_lt_size_ofList selections main, ?_⟩
  by_cases hne : selections = []
  · rw [hne]
    exact (valid_start length).last_le
  · have hlast : ∀ s ∈ (arranged selections main).foldl mergeNext [], s.1.last ≤ length := by
      apply last_le_of_mem_foldl_mergeNext
      · intro s hs
        exact h s.1 (mem_of_mem_arranged hs)
      · simp
    intro s hs
    rw [ofList_eq main hne] at hs
    rcases List.mem_map.1 hs with ⟨t, ht, rfl⟩
    exact hlast t (List.mem_reverse.1 ht)

/-! ## Replacing selections -/

theorem valid_ofReplacements {replacements : List (List Selection)} (main : Nat)
    (h : ∀ pieces ∈ replacements, ∀ s ∈ pieces, s.last ≤ length) :
    (ofReplacements replacements main).Valid length := by
  apply valid_ofList
  intro s hs
  rcases List.mem_flatten.1 hs with ⟨pieces, hpieces, hs⟩
  exact h pieces hpieces s hs

theorem valid_replaceEach {f : Selection → List Selection}
    (h : ∀ s ∈ set.selections, ∀ t ∈ f s, t.last ≤ length) :
    (set.replaceEach f).Valid length := by
  apply valid_ofReplacements
  intro pieces hpieces
  rcases List.mem_map.1 hpieces with ⟨s, hs, rfl⟩
  exact h s hs

theorem valid_refineEach? {f : Selection → List Selection} {otherwise : SelectionError}
    {refined : SelectionSet} (h : ∀ s ∈ set.selections, ∀ t ∈ f s, t.last ≤ length)
    (hok : set.refineEach? f otherwise = .ok refined) : refined.Valid length := by
  rw [refineEach?] at hok
  split_ifs at hok
  cases hok
  exact valid_replaceEach h

/-- Any set is valid after moving its ends back. -/
theorem valid_clamped (set : SelectionSet) (length : Nat) :
    (set.clamped length).Valid length := by
  apply valid_replaceEach
  intro s _ t ht
  rw [List.mem_singleton.1 ht, Selection.last_le_iff]
  exact ⟨Nat.min_le_right _ _, Nat.min_le_right _ _⟩

/-- Moving cursors moves all ends back to the length. -/
theorem valid_moveCursors (set : SelectionSet) (target : Nat → Nat) (extend : Bool)
    (length : Nat) : (set.moveCursors target extend length).Valid length := by
  apply valid_replaceEach
  intro s _ t ht
  rw [List.mem_singleton.1 ht]
  split_ifs
  · rw [Selection.last_le_iff]
    exact ⟨Nat.min_le_right _ _, Nat.min_le_right _ _⟩
  · rw [Selection.last_point]
    exact Nat.min_le_right _ _

theorem valid_all (length : Nat) : (all length).Valid length := by
  apply valid_ofList
  intro s hs
  rw [List.mem_singleton.1 hs, Selection.last_le_iff]
  exact ⟨Nat.zero_le _, Nat.sub_le _ _⟩

namespace Valid

theorem collapse (h : set.Valid length) : set.collapse.Valid length := by
  apply valid_replaceEach
  intro s hs t ht
  rw [List.mem_singleton.1 ht, Selection.collapsed, Selection.last_point]
  exact (Selection.last_le_iff.1 (h.last_le s hs)).2

theorem swapEnds (h : set.Valid length) : set.swapEnds.Valid length := by
  apply valid_replaceEach
  intro s hs t ht
  rw [List.mem_singleton.1 ht, Selection.last_le_iff]
  exact (Selection.last_le_iff.1 (h.last_le s hs)).symm

/-! ## Choosing selections -/

theorem keep (h : set.Valid length) (index : Nat) : (set.keep index).Valid length := by
  apply valid_ofList
  intro s hs
  have hlt : min index (set.size - 1) < set.selections.length := by
    have hpos : 0 < set.selections.length := h.size_pos
    rw [size]
    omega
  rw [List.mem_singleton.1 hs, List.getD_eq_getElem?_getD, List.getElem?_eq_getElem hlt]
  exact h.last_le _ (List.getElem_mem hlt)

theorem drop? (h : set.Valid length) {index : Nat} {left : SelectionSet}
    (hok : set.drop? index = .ok left) : left.Valid length := by
  rw [SelectionSet.drop?] at hok
  split_ifs at hok
  all_goals
    cases hok
    apply valid_ofList
    intro s hs
    exact h.last_le s (List.mem_of_mem_eraseIdx hs)

theorem cycleForward (h : set.Valid length) (steps : Nat) :
    (set.cycleForward steps).Valid length :=
  ⟨h.separate, Nat.mod_lt _ h.size_pos, h.last_le⟩

theorem cycleBackward (h : set.Valid length) (steps : Nat) :
    (set.cycleBackward steps).Valid length :=
  ⟨h.separate, Nat.mod_lt _ h.size_pos, h.last_le⟩

end Valid

end SelectionSet

end HexEditor
