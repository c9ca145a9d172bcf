import HexEditor.Proofs.Selection.Valid
import Mathlib.Data.List.Dedup
import Mathlib.Data.List.Sort

/-!
# Sets of points

Points that are made to a set are merged if they are equal and not otherwise.  So the set holds
every point once, and the point that was to be the main one is it, whichever other points have
been merged with it.

Main results:

- Definition `SelectionSet.Gathered` and theorem `SelectionSet.Gathered.mergeNext`: what merging
  keeps when all selections are points.
- Theorem `SelectionSet.ofList_points`: the set that is made of points in order.
-/

namespace HexEditor

namespace Selection

theorem point_injective : Function.Injective point := by
  intro p q h
  rw [← first_point p, h, first_point]

/-- Two points share an offset if they are equal. -/
theorem overlaps_point (p q : Nat) : (point p).overlaps (point q) = decide (p = q) := by
  simp only [overlaps, first_point, last_point, ← Bool.decide_and, decide_eq_decide]
  omega

theorem cover_point_self (p : Nat) : (point p).cover (point p) = point p := by
  have hforward : (point p).isBackward = false := decide_eq_false (Nat.lt_irrefl p)
  rw [cover, hforward, Nat.min_self, Nat.max_self, first_point, last_point]
  rfl

end Selection

namespace SelectionSet

open Selection

/-! ## Merging points -/

/-- What holds when points have been merged: they are those that have been seen, and only the
target has been marked. -/
structure Gathered (merged : List (Selection × Bool)) (seen : List Selection) (target : Nat) :
    Prop where
  /-- Only points have been seen. -/
  points : ∀ s ∈ seen, ∃ p, s = point p
  /-- Each of them is among those merged so far, and there are no others. -/
  mem_iff : ∀ s, s ∈ merged.map Prod.fst ↔ s ∈ seen
  /-- A mark is on the target. -/
  marked : ∀ s ∈ merged, s.2 = true → s.1 = point target

variable {merged ordered : List (Selection × Bool)} {seen : List Selection} {target : Nat}

/-- The next point goes into an equal one or is added. -/
theorem Gathered.mergeNext (h : Gathered merged seen target) {next : Selection × Bool}
    (hnext : ∃ p, next.1 = point p) (hmarked : next.2 = true → next.1 = point target) :
    Gathered (SelectionSet.mergeNext merged next) (next.1 :: seen) target := by
  rcases h with ⟨hpoints, hmem, htarget⟩
  have hpoints' : ∀ s ∈ next.1 :: seen, ∃ p, s = point p := by
    intro s hs
    rcases List.mem_cons.1 hs with rfl | hs
    · exact hnext
    · exact hpoints s hs
  rcases merged with _ | ⟨latest, earlier⟩
  · refine ⟨hpoints', ?_, ?_⟩
    · intro s
      rw [SelectionSet.mergeNext, List.mem_cons, ← hmem]
      simp
    · intro s hs
      rw [List.mem_singleton.1 hs]
      exact hmarked
  · rcases hpoints latest.1 ((hmem _).1 (by simp)) with ⟨q, hq⟩
    rcases hnext with ⟨p, hp⟩
    by_cases hequal : q = p
    · have hcover : latest.1.cover next.1 = latest.1 := by
        rw [hq, hp, hequal, cover_point_self]
      have hsame : next.1 = latest.1 := by rw [hq, hp, hequal]
      rw [SelectionSet.mergeNext, hq, hp, overlaps_point, if_pos (by simpa using hequal), ← hq,
        ← hp, hcover]
      refine ⟨hpoints', ?_, ?_⟩
      · intro s
        rw [List.mem_cons, ← hmem, hsame]
        simp
      · intro s hs
        rcases List.mem_cons.1 hs with rfl | hs
        · intro hmark
          rcases Bool.or_eq_true_iff.1 hmark with hmark | hmark
          · exact htarget latest List.mem_cons_self hmark
          · exact hsame.symm.trans (hmarked hmark)
        · exact htarget s (List.mem_cons_of_mem _ hs)
    · rw [SelectionSet.mergeNext, hq, hp, overlaps_point, if_neg (by simpa using hequal), ← hp]
      refine ⟨hpoints', ?_, ?_⟩
      · intro s
        rw [List.map_cons, List.mem_cons, hmem, List.mem_cons]
      · intro s hs
        rcases List.mem_cons.1 hs with rfl | hs
        · exact hmarked
        · exact htarget s hs

theorem Gathered.foldl (h : Gathered merged seen target)
    (hpoints : ∀ s ∈ ordered, ∃ p, s.1 = point p)
    (hmarked : ∀ s ∈ ordered, s.2 = true → s.1 = point target) :
    Gathered (ordered.foldl SelectionSet.mergeNext merged)
      ((ordered.map Prod.fst).reverse ++ seen) target := by
  induction ordered generalizing merged seen with
  | nil => exact h
  | cons next ordered ih =>
      have hstep := h.mergeNext (hpoints next List.mem_cons_self) (hmarked next List.mem_cons_self)
      have hrest := ih hstep (fun s hs => hpoints s (List.mem_cons_of_mem _ hs))
        fun s hs => hmarked s (List.mem_cons_of_mem _ hs)
      simpa using hrest

/-! ## Making a set -/

section Points

variable {points : List Nat} {main length : Nat}

/-- A selection to be arranged is a point, and marked only if it is the target. -/
theorem mem_arranged_points (hmain : main < points.length) {s : Selection × Bool}
    (hs : s ∈ arranged (points.map point) main) :
    (∃ p, s.1 = point p) ∧ (s.2 = true → s.1 = point points[main]) := by
  rw [arranged, List.mem_mergeSort, List.mem_map] at hs
  rcases hs with ⟨⟨t, i⟩, ht, rfl⟩
  have hget : (points.map point)[i]? = some t := List.mem_zipIdx_iff_getElem?.1 ht
  rw [List.getElem?_map, Option.map_eq_some_iff] at hget
  rcases hget with ⟨p, hp, rfl⟩
  refine ⟨⟨p, rfl⟩, ?_⟩
  intro hmark
  have hi : i = main := by
    rw [List.length_map] at hmark
    have heq : i = min main (points.length - 1) := by simpa using hmark
    omega
  subst hi
  rw [List.getElem?_eq_getElem hmain] at hp
  exact congrArg point (Option.some.inj hp).symm

/-- Arranging selections does not add or lose one. -/
theorem perm_arranged (selections : List Selection) (main : Nat) :
    ((arranged selections main).map Prod.fst).Perm selections := by
  rw [arranged]
  refine ((List.mergeSort_perm _ _).map _).trans (.of_eq ?_)
  rw [List.map_map]
  exact List.zipIdx_map_fst 0 selections

/-- Selections in order that are points are those with the same first offsets. -/
theorem eq_map_point {selections : List Selection}
    (hseparate : selections.Pairwise fun s t => s.first < t.first)
    (hsorted : points.Pairwise (· ≤ ·)) (hmem : ∀ s, s ∈ selections ↔ s ∈ points.map point) :
    selections = points.dedup.map point := by
  have hfirsts : (selections.map first).Pairwise (· < ·) := List.pairwise_map.2 hseparate
  have hdedup : points.dedup.Pairwise (· < ·) := by
    have hle := hsorted.sublist points.dedup_sublist
    exact (hle.and points.nodup_dedup).imp fun h => Nat.lt_of_le_of_ne h.1 h.2
  have hequal : selections.map first = points.dedup := by
    apply hfirsts.eq_of_mem_iff hdedup
    intro p
    rw [List.mem_dedup, List.mem_map]
    constructor
    · rintro ⟨s, hs, rfl⟩
      rcases List.mem_map.1 ((hmem s).1 hs) with ⟨p, hp, rfl⟩
      rwa [first_point]
    · intro hp
      exact ⟨point p, (hmem _).2 (List.mem_map_of_mem hp), first_point p⟩
  have hback : selections.map (point ∘ first) = selections.map id := by
    apply List.map_congr_left
    intro s hs
    rcases List.mem_map.1 ((hmem s).1 hs) with ⟨p, -, rfl⟩
    rw [Function.comp_apply, first_point, id]
  rw [← hequal, List.map_map, hback, List.map_id]

/-- Points in order, none of them behind the length, make a set that holds each of them once.
The main selection is the point that was to be it. -/
theorem ofList_points (hmain : main < points.length) (hsorted : points.Pairwise (· ≤ ·))
    (hle : ∀ p ∈ points, p ≤ length) :
    (ofList (points.map point) main).selections = points.dedup.map point ∧
      (ofList (points.map point) main).mainSelection = point points[main] := by
  have hvalid : (ofList (points.map point) main).Valid length := by
    apply valid_ofList
    intro s hs
    rcases List.mem_map.1 hs with ⟨p, hp, rfl⟩
    rw [last_point]
    exact hle p hp
  have hne : points.map point ≠ [] := by
    rw [← List.length_pos_iff, List.length_map]
    omega
  have hnone : Gathered [] [] points[main] := ⟨by simp, by simp, by simp⟩
  have hgathered := hnone.foldl (fun s hs => (mem_arranged_points hmain hs).1)
    fun s hs => (mem_arranged_points hmain hs).2
  have hmem : ∀ s, s ∈ ((arranged (points.map point) main).foldl SelectionSet.mergeNext []).map
      Prod.fst ↔ s ∈ points.map point := by
    intro s
    rw [hgathered.mem_iff, List.append_nil, List.mem_reverse, (perm_arranged _ _).mem_iff]
  rw [ofList_eq main hne] at hvalid ⊢
  refine ⟨?_, ?_⟩
  · apply eq_map_point hvalid.sorted hsorted
    intro s
    dsimp only
    rw [List.map_reverse, List.mem_reverse, hmem]
  · have hlt := hvalid.main_lt
    rw [size, List.length_map] at hlt
    dsimp only at hlt
    have hmark := List.findIdx_getElem (w := hlt)
    rw [mainSelection, List.getD_eq_getElem?_getD, List.getElem?_map,
      List.getElem?_eq_getElem hlt]
    exact hgathered.marked _ (List.mem_reverse.1 (List.getElem_mem hlt)) hmark

end Points

end SelectionSet

end HexEditor
