import HexEditor.Proofs.Selection.Valid

/-!
# Valid sets are in normal form

Making a set sorts its selections and merges those that overlap.  Selections that are
already in order and share no offset stay as they are, so a valid set is made of itself, and
moving its ends back to a length that bounds them changes nothing.

Main results:

- Theorem `SelectionSet.ofList_of_pairwise`: selections in order make up a set as they are.
- Theorem `SelectionSet.ofReplacements_of_within`: pieces that stay within their selections are
  not merged.
- Theorem `SelectionSet.Valid.ofList_eq`: a valid set is the set made of its selections.
- Theorem `SelectionSet.Valid.replaceEach_singleton`: replacing every selection by one other.
- Theorem `SelectionSet.Valid.clamped_eq`: moving the ends of a valid set back leaves it.
-/

namespace HexEditor

namespace Selection

theorem overlaps_eq_false {s t : Selection} (h : s.last < t.first) :
    s.overlaps t = false := by
  simp only [overlaps, Bool.and_eq_false_iff, decide_eq_false_iff_not]
  exact .inr (Nat.not_le.2 h)

theorem clamped_eq {s : Selection} {length : Nat} (h : s.last ≤ length) :
    s.clamped length = s := by
  rcases last_le_iff.1 h with ⟨hanchor, hcursor⟩
  simp only [clamped, Nat.min_eq_left hanchor, Nat.min_eq_left hcursor]

end Selection

namespace SelectionSet

variable {set : SelectionSet} {length : Nat}

/-- Selections in order that share no offset are not merged. -/
theorem foldl_mergeNext_eq {ordered merged : List (Selection × Bool)}
    (h : (merged.reverse ++ ordered).Pairwise fun s t => s.1.last < t.1.first) :
    ordered.foldl mergeNext merged = ordered.reverse ++ merged := by
  induction ordered generalizing merged with
  | nil => rfl
  | cons next ordered ih =>
      have hnext : mergeNext merged next = next :: merged := by
        rcases merged with _ | ⟨latest, earlier⟩
        · rfl
        · rcases List.pairwise_append.1 h with ⟨-, -, hbehind⟩
          have hlast : latest.1.last < next.1.first :=
            hbehind latest (by simp) next List.mem_cons_self
          rw [mergeNext, Selection.overlaps_eq_false hlast]
          rfl
      rw [List.foldl_cons, hnext, ih]
      · simp
      · simpa using h

variable {selections : List Selection} {main : Nat}

/-- Selections in order are arranged as they are. -/
theorem arranged_of_pairwise (h : selections.Pairwise fun s t => s.last < t.first)
    (hmain : main < selections.length) :
    arranged selections main = selections.zipIdx.map fun (s, i) => (s, i == main) := by
  have hmin : min main (selections.length - 1) = main := by omega
  rw [arranged, hmin]
  apply List.mergeSort_of_pairwise
  have hsorted : (selections.zipIdx.map Prod.fst).Pairwise fun s t => s.last < t.first := by
    rw [List.zipIdx_map_fst]
    exact h
  rw [List.pairwise_map] at hsorted ⊢
  apply hsorted.imp
  intro p q hpq
  have hfirst := p.1.first_le_last
  exact decide_eq_true (by dsimp only; omega)

/-- Selections in order that share no offset make up a set as they are. -/
theorem ofList_of_pairwise (h : selections.Pairwise fun s t => s.last < t.first)
    (hmain : main < selections.length) : ofList selections main = ⟨selections, main⟩ := by
  have hne : selections ≠ [] := List.length_pos_iff.1 (by omega)
  have hseparate : (selections.zipIdx.map fun (s, i) => (s, i == main)).Pairwise
      fun s t => s.1.last < t.1.first := by
    have hfst : (selections.zipIdx.map Prod.fst).Pairwise fun s t => s.last < t.first := by
      rw [List.zipIdx_map_fst]
      exact h
    rw [List.pairwise_map] at hfst ⊢
    exact hfst
  have hselections : (selections.zipIdx.map fun (s, i) => (s, i == main)).map (·.1) =
      selections := by
    rw [List.map_map]
    exact List.zipIdx_map_fst 0 selections
  have hindex : (selections.zipIdx.map fun (s, i) => (s, i == main)).findIdx (·.2) = main := by
    rw [List.findIdx_eq (by simpa using hmain)]
    simp only [List.getElem_map, List.getElem_zipIdx, Nat.zero_add, BEq.rfl, true_and]
    intro j hj
    simpa using Nat.ne_of_lt hj
  rw [ofList_eq _ hne, arranged_of_pairwise h hmain, foldl_mergeNext_eq (by simpa using hseparate),
    List.append_nil, List.reverse_reverse, hselections, hindex]

/-- An index behind the last selection means the last one. -/
theorem ofList_min (selections : List Selection) (main : Nat) :
    ofList selections (min main (selections.length - 1)) = ofList selections main := by
  simp only [ofList, Nat.min_assoc, Nat.min_self]

/-! ## Pieces of selections -/

section Pieces

variable {f : Selection → List Selection}

/-- Pieces that stay within their selections are in order if the selections are. -/
theorem pairwise_flatMap_of_within (h : selections.Pairwise fun s t => s.last < t.first)
    (hpieces : ∀ s ∈ selections, (f s).Pairwise fun t u => t.last < u.first)
    (hwithin : ∀ s ∈ selections, ∀ t ∈ f s, s.first ≤ t.first ∧ t.last ≤ s.last) :
    (selections.flatMap f).Pairwise fun t u => t.last < u.first := by
  rw [List.pairwise_flatMap]
  refine ⟨hpieces, h.imp_of_mem ?_⟩
  intro s s' hs hs' hlt t ht u hu
  have hhigh := (hwithin s hs t ht).2
  have hlow := (hwithin s' hs' u hu).1
  omega

/-- Pieces that stay within their selections are not merged when they replace them.  The main
selection becomes its own first piece, or else the next one, or else the last. -/
theorem ofReplacements_of_within (h : selections.Pairwise fun s t => s.last < t.first)
    (hpieces : ∀ s ∈ selections, (f s).Pairwise fun t u => t.last < u.first)
    (hwithin : ∀ s ∈ selections, ∀ t ∈ f s, s.first ≤ t.first ∧ t.last ≤ s.last)
    (hne : selections.flatMap f ≠ []) (main : Nat) :
    ofReplacements (selections.map f) main =
      ⟨selections.flatMap f,
        min ((selections.take main).flatMap f).length ((selections.flatMap f).length - 1)⟩ := by
  have hpos := List.length_pos_iff.2 hne
  rw [ofReplacements, ← List.map_take, ← List.flatMap_def, ← List.flatMap_def, ← ofList_min,
    ofList_of_pairwise (pairwise_flatMap_of_within h hpieces hwithin) (by omega)]

/-- Refining is refused just when no piece is left. -/
theorem refineEach?_eq (h : set.selections.Pairwise fun s t => s.last < t.first)
    (hpieces : ∀ s ∈ set.selections, (f s).Pairwise fun t u => t.last < u.first)
    (hwithin : ∀ s ∈ set.selections, ∀ t ∈ f s, s.first ≤ t.first ∧ t.last ≤ s.last)
    (otherwise : SelectionError) :
    set.refineEach? f otherwise =
      if set.selections.flatMap f = [] then .error otherwise
      else .ok ⟨set.selections.flatMap f,
        min ((set.selections.take set.main).flatMap f).length
          ((set.selections.flatMap f).length - 1)⟩ := by
  have hnone : (set.selections.map f).all List.isEmpty = true ↔
      set.selections.flatMap f = [] := by
    simp [List.flatMap_eq_nil_iff]
  unfold refineEach?
  by_cases hnil : set.selections.flatMap f = []
  · rw [if_pos (hnone.2 hnil), if_pos hnil]
  · rw [if_neg (mt hnone.1 hnil), if_neg hnil,
      ofReplacements_of_within h hpieces hwithin hnil]

end Pieces

/-! ## Sets as they are -/

/-- A valid set is the set made of its selections. -/
theorem Valid.ofList_eq (h : set.Valid length) : ofList set.selections set.main = set :=
  ofList_of_pairwise h.separate h.main_lt

/-- When every selection is replaced by one other, the main one is replaced by the main one. -/
theorem Valid.replaceEach_singleton (h : set.Valid length) (f : Selection → Selection) :
    (set.replaceEach fun s => [f s]) = ofList (set.selections.map f) set.main := by
  have hmain : (set.selections.take set.main).length = set.main := by
    rw [List.length_take]
    exact Nat.min_eq_left (Nat.le_of_lt h.main_lt)
  have hflat : ∀ selections : List Selection,
      (selections.map fun s => [f s]).flatten = selections.map f := by
    intro selections
    rw [← List.flatMap_def, ← List.map_eq_flatMap]
  rw [replaceEach, ofReplacements, ← List.map_take, hflat, hflat, List.length_map, hmain]

/-- Moving the ends of a valid set back to its length leaves the set. -/
theorem Valid.clamped_eq (h : set.Valid length) : set.clamped length = set := by
  have hkept : set.selections.map (Selection.clamped length) = set.selections := by
    rw [List.map_congr_left fun s hs => Selection.clamped_eq (h.last_le s hs), List.map_id']
  rw [clamped, h.replaceEach_singleton, hkept, h.ofList_eq]

end SelectionSet

end HexEditor
