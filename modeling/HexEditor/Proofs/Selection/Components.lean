import HexEditor.Proofs.Selection.Normal
import Mathlib.Data.List.Forall2
import Mathlib.Logic.Relation

/-!
# The components of a set

Making a set merges the selections that share an offset, and merges what comes out again as long
as anything overlaps.  So every selection of the set stands for a component of those it was made
of: for all selections that a chain of others leads to, each of which shares an offset with the
next.  Selections that only border on each other are not in one component.

Merging passes over the selections in the order of their first offsets and compares each of them
with the latest merged one alone.  What this one covers is exactly what its members cover, and
those merged before lie in front of it, so no other comparison is missed.

Main results:

- Definition `Covered`: the offsets below selections.
- Definition `Selection.Linked`: a chain of overlaps.
- Definition `Selection.Hull` and theorem `Selection.Hull.cover`: what merging two selections
  covers.
- Theorem `SelectionSet.exists_components_mergeNext`: one step of merging, and theorem
  `SelectionSet.exists_components_foldl`: all of them.
- Definition `SelectionSet.Components` and theorem `SelectionSet.exists_components`: the selections
  of a set are the hulls of the components.
- Theorem `SelectionSet.ofList_merges_overlaps`: what a set of any selections is.
-/

namespace HexEditor

/-! ## Covered offsets -/

/-- One of the selections covers the offset. -/
def Covered (selections : List Selection) (offset : Nat) : Prop :=
  ∃ s ∈ selections, s.first ≤ offset ∧ offset ≤ s.last

instance (selections : List Selection) : DecidablePred (Covered selections) :=
  fun offset => inferInstanceAs (Decidable (∃ s ∈ selections, s.first ≤ offset ∧ offset ≤ s.last))

namespace Selection

variable {s t : Selection} {selections members : List Selection} {offset : Nat}

/-! ## Links -/

theorem overlaps_iff : s.overlaps t = true ↔ s.first ≤ t.last ∧ t.first ≤ s.last := by
  simp [overlaps]

theorem overlaps_comm (s t : Selection) : s.overlaps t = t.overlaps s :=
  Bool.and_comm _ _

/-- Selections overlap if they share an offset. -/
theorem overlaps_iff_exists :
    s.overlaps t = true ↔
      ∃ offset, (s.first ≤ offset ∧ offset ≤ s.last) ∧ t.first ≤ offset ∧ offset ≤ t.last := by
  have hs := s.first_le_last
  have ht := t.first_le_last
  rw [overlaps_iff]
  constructor
  · rintro ⟨hst, hts⟩
    exact ⟨max s.first t.first, by omega⟩
  · rintro ⟨offset, hoffset⟩
    omega

/-- Two selections are linked in a list if a chain of its selections leads from one to the other,
each of which shares an offset with the next.  Every selection is linked with itself. -/
def Linked (selections : List Selection) : Selection → Selection → Prop :=
  Relation.ReflTransGen fun s t => s ∈ selections ∧ t ∈ selections ∧ s.overlaps t = true

namespace Linked

theorem of_overlaps (hs : s ∈ selections) (ht : t ∈ selections) (h : s.overlaps t = true) :
    Linked selections s t :=
  .single ⟨hs, ht, h⟩

theorem symm (h : Linked selections s t) : Linked selections t s := by
  induction h with
  | refl => exact .refl
  | tail _ hlink ih =>
      rcases hlink with ⟨hr, ht, hoverlap⟩
      exact .head ⟨ht, hr, by rwa [overlaps_comm]⟩ ih

theorem mono (h : Linked members s t) (hsubset : ∀ r ∈ members, r ∈ selections) :
    Linked selections s t :=
  Relation.ReflTransGen.mono
    (fun _ _ hlink => ⟨hsubset _ hlink.1, hsubset _ hlink.2.1, hlink.2.2⟩) _ _ h

end Linked

/-! ## Hulls -/

/-- The selection covers just what the members cover, in the direction of the first of them. -/
structure Hull (members : List Selection) (s : Selection) : Prop where
  /-- The members leave no gap and go no further. -/
  covers : ∀ offset, s.first ≤ offset ∧ offset ≤ s.last ↔ Covered members offset
  /-- The first member gives the direction. -/
  direction : members.head?.map isBackward = some s.isBackward

theorem hull_singleton (s : Selection) : Hull [s] s :=
  ⟨fun offset => by simp [Covered], rfl⟩

theorem Hull.bounds (h : Hull members s) (ht : t ∈ members) :
    s.first ≤ t.first ∧ t.last ≤ s.last := by
  have hfirst := t.first_le_last
  have hlow := (h.covers t.first).2 ⟨t, ht, Nat.le_refl _, hfirst⟩
  have hhigh := (h.covers t.last).2 ⟨t, ht, hfirst, Nat.le_refl _⟩
  exact ⟨hlow.1, hhigh.2⟩

theorem isBackward_cover (s t : Selection) : (s.cover t).isBackward = s.isBackward := by
  have hs := s.first_le_last
  unfold cover
  apply isBackward_oriented
  · omega
  · intro hbackward
    have hlt := first_lt_last_of_isBackward hbackward
    omega

/-- Merging takes the next selection up into the members. -/
theorem Hull.cover (h : Hull members s) (hoverlap : s.overlaps t = true) :
    Hull (members ++ [t]) (s.cover t) := by
  have hs := s.first_le_last
  have ht := t.first_le_last
  rcases overlaps_iff.1 hoverlap with ⟨hst, hts⟩
  constructor
  · intro offset
    have happend : Covered (members ++ [t]) offset ↔
        Covered members offset ∨ (t.first ≤ offset ∧ offset ≤ t.last) := by
      simp [Covered, or_and_right, exists_or]
    rw [happend, ← h.covers, first_cover, last_cover]
    omega
  · rw [isBackward_cover, ← h.direction, List.head?_append_of_ne_nil]
    intro hnil
    have hnone := h.direction
    simp [hnil] at hnone

/-- Things in order that do not overlap are equal if they share an offset. -/
theorem eq_of_common_offset {α : Type} {f : α → Selection} {things : List α}
    (h : things.Pairwise fun x y => (f x).last < (f y).first) {x y : α} (hx : x ∈ things)
    (hy : y ∈ things) (hxo : (f x).first ≤ offset ∧ offset ≤ (f x).last)
    (hyo : (f y).first ≤ offset ∧ offset ≤ (f y).last) : x = y := by
  induction h with
  | nil => cases hx
  | @cons z things hz _ ih =>
      rcases List.mem_cons.1 hx with rfl | hx' <;> rcases List.mem_cons.1 hy with rfl | hy'
      · rfl
      · have hlt := hz y hy'
        omega
      · have hlt := hz x hx'
        omega
      · exact ih hx' hy'

section Hulls

variable {components : List (List (Selection × Nat))} {hulls : List Selection}

/-- Every selection lies within the hull of its component. -/
theorem exists_hull (h : List.Forall₂ (fun c s => Hull (c.map Prod.fst) s) components hulls)
    {p : Selection × Nat} (hp : p ∈ components.flatten) :
    ∃ c s, (c, s) ∈ components.zip hulls ∧ p ∈ c ∧ s.first ≤ p.1.first ∧ p.1.last ≤ s.last := by
  rcases List.mem_flatten.1 hp with ⟨c, hc, hpc⟩
  rcases List.forall₂_iff_zip.1 h with ⟨hlength, hhull⟩
  rcases List.getElem_of_mem hc with ⟨i, hi, rfl⟩
  have hzip : (components[i], hulls[i]) ∈ components.zip hulls := by
    rw [List.mem_iff_getElem]
    exact ⟨i, by rw [List.length_zip]; omega, List.getElem_zip⟩
  exact ⟨_, _, hzip, hpc, (hhull hzip).bounds (List.mem_map_of_mem hpc)⟩

theorem exists_hull_of_mem
    (h : List.Forall₂ (fun c s => Hull (c.map Prod.fst) s) components hulls)
    (hmem : ∀ p, p ∈ components.flatten ↔ p ∈ selections.zipIdx) (hs : s ∈ selections) :
    ∃ r ∈ hulls, r.first ≤ s.first ∧ s.last ≤ r.last := by
  rw [← List.zipIdx_map_fst 0 selections] at hs
  rcases List.mem_map.1 hs with ⟨p, hp, rfl⟩
  rcases exists_hull h ((hmem p).2 hp) with ⟨c, r, hzip, -, hbounds⟩
  exact ⟨r, (List.of_mem_zip hzip).2, hbounds⟩

/-- Links do not lead out of a hull.  Selections that share an offset lie within hulls that do, and
hulls that share an offset are the same. -/
theorem Linked.first_mem_hull {r : Selection} (hlinked : Linked selections s t)
    (hwithin : ∀ s ∈ selections, ∃ r ∈ hulls, r.first ≤ s.first ∧ s.last ≤ r.last)
    (hseparate : hulls.Pairwise fun s t => s.last < t.first) (hr : r ∈ hulls)
    (hs : r.first ≤ s.first ∧ s.first ≤ r.last) : r.first ≤ t.first ∧ t.first ≤ r.last := by
  induction hlinked with
  | refl => exact hs
  | @tail u v _ hlink ih =>
      rcases hlink with ⟨hu, hv, hoverlap⟩
      rcases overlaps_iff_exists.1 hoverlap with ⟨offset, huo, hvo⟩
      rcases hwithin u hu with ⟨a, ha, hau⟩
      rcases hwithin v hv with ⟨b, hb, hbv⟩
      have hfirst := u.first_le_last
      have hfirst' := v.first_le_last
      have har : a = r := eq_of_common_offset (f := id) hseparate ha hr
        (show a.first ≤ u.first ∧ u.first ≤ a.last by omega) ih
      have hab : b = a := eq_of_common_offset (f := id) hseparate hb ha
        (show b.first ≤ offset ∧ offset ≤ b.last by omega)
        (show a.first ≤ offset ∧ offset ≤ a.last by omega)
      rw [← har, ← hab]
      omega

/-- What a hull covers is covered by a member of its component. -/
theorem exists_member (h : List.Forall₂ (fun c s => Hull (c.map Prod.fst) s) components hulls)
    {r : Selection} (hr : r ∈ hulls) (hoffset : r.first ≤ offset ∧ offset ≤ r.last) :
    ∃ c p, (c, r) ∈ components.zip hulls ∧ p ∈ c ∧ p.1.first ≤ offset ∧ offset ≤ p.1.last := by
  rcases List.forall₂_iff_zip.1 h with ⟨hlength, hhull⟩
  rcases List.getElem_of_mem hr with ⟨i, hi, rfl⟩
  have hzip : (components[i], hulls[i]) ∈ components.zip hulls := by
    rw [List.mem_iff_getElem]
    exact ⟨i, by rw [List.length_zip]; omega, List.getElem_zip⟩
  rcases ((hhull hzip).covers offset).1 hoffset with ⟨s, hs, hsoffset⟩
  rcases List.mem_map.1 hs with ⟨p, hp, rfl⟩
  exact ⟨_, p, hzip, hp, hsoffset⟩

/-- A component is the only one whose hull covers an offset that its own does. -/
theorem eq_of_mem_zip (h : List.Forall₂ (fun c s => Hull (c.map Prod.fst) s) components hulls)
    (hseparate : hulls.Pairwise fun s t => s.last < t.first) {c d : List (Selection × Nat)}
    (hc : (c, s) ∈ components.zip hulls) (hd : (d, t) ∈ components.zip hulls)
    (hs : s.first ≤ offset ∧ offset ≤ s.last) (ht : t.first ≤ offset ∧ offset ≤ t.last) :
    c = d := by
  have hpairs : (components.zip hulls).Pairwise fun x y => x.2.last < y.2.first := by
    rw [← List.pairwise_map (f := Prod.snd) (R := fun s t : Selection => s.last < t.first),
      List.map_snd_zip (Nat.le_of_eq h.length_eq.symm)]
    exact hseparate
  exact congrArg Prod.fst (eq_of_common_offset (f := Prod.snd) hpairs hc hd hs ht)

/-- Linked selections are in one component. -/
theorem Linked.exists_component
    (h : List.Forall₂ (fun c s => Hull (c.map Prod.fst) s) components hulls)
    (hmem : ∀ p, p ∈ components.flatten ↔ p ∈ selections.zipIdx)
    (hseparate : hulls.Pairwise fun s t => s.last < t.first) {p q : Selection × Nat}
    (hlinked : Linked selections p.1 q.1) (hp : p ∈ selections.zipIdx)
    (hq : q ∈ selections.zipIdx) : ∃ c ∈ components, p ∈ c ∧ q ∈ c := by
  rcases exists_hull h ((hmem p).2 hp) with ⟨c, s, hc, hpc, hps⟩
  rcases exists_hull h ((hmem q).2 hq) with ⟨d, t, hd, hqd, hqt⟩
  have hfirst := p.1.first_le_last
  have hfirst' := q.1.first_le_last
  have hqs := hlinked.first_mem_hull (fun _ => exists_hull_of_mem h hmem) hseparate
    (List.of_mem_zip hc).2 (by omega)
  rw [← eq_of_mem_zip h hseparate hc hd hqs (by omega)] at hqd
  exact ⟨c, (List.of_mem_zip hc).1, hpc, hqd⟩

end Hulls

end Selection

namespace SelectionSet

open Selection

/-- Selections of a valid set that share an offset are the same. -/
theorem Valid.eq_of_shared {set : SelectionSet} {length offset : Nat} {s t : Selection}
    (h : set.Valid length) (hs : s ∈ set.selections) (ht : t ∈ set.selections)
    (hso : s.first ≤ offset ∧ offset ≤ s.last) (hto : t.first ≤ offset ∧ offset ≤ t.last) :
    s = t :=
  eq_of_common_offset (f := id) h.separate hs ht hso hto

/-! ## Merging -/

/-- What a merged selection, which may be marked, has to do with the selections that went into it,
each of which is accompanied by its index. -/
structure Component (main : Nat) (members : List (Selection × Nat)) (merged : Selection × Bool) :
    Prop where
  /-- It covers what they cover. -/
  hull : Hull (members.map Prod.fst) merged.1
  /-- They are linked with one another. -/
  linked : ∀ p ∈ members, ∀ q ∈ members, Linked (members.map Prod.fst) p.1 q.1
  /-- The mark is on the component of the main selection. -/
  marked : merged.2 = true ↔ main ∈ members.map Prod.snd

section Component

variable {main : Nat} {members : List (Selection × Nat)} {latest : Selection × Bool}

theorem component_singleton (main : Nat) (next : Selection × Nat) :
    Component main [next] (next.1, next.2 == main) where
  hull := hull_singleton next.1
  linked := by
    intro p hp q hq
    rw [List.mem_singleton.1 hp, List.mem_singleton.1 hq]
    exact .refl
  marked := by
    rw [beq_iff_eq, List.map_singleton, List.mem_singleton]
    exact eq_comm

/-- A selection that overlaps the merged one is linked with all of its members. -/
theorem Component.mergeNext (h : Component main members latest) {next : Selection × Nat}
    (hoverlap : latest.1.overlaps next.1 = true) :
    Component main (members ++ [next]) (latest.1.cover next.1, latest.2 || next.2 == main) := by
  have hsubset : ∀ r ∈ members.map Prod.fst, r ∈ (members ++ [next]).map Prod.fst := by
    intro r hr
    rw [List.map_append]
    exact List.mem_append_left _ hr
  -- the member that covers a shared offset is the link to all others
  have hnext : ∀ p ∈ members, Linked ((members ++ [next]).map Prod.fst) p.1 next.1 := by
    intro p hp
    rcases overlaps_iff_exists.1 hoverlap with ⟨offset, hlatest, hoffset⟩
    rcases (h.hull.covers offset).1 hlatest with ⟨r, hr, hr'⟩
    rcases List.mem_map.1 hr with ⟨q, hq, rfl⟩
    have hlink : q.1.overlaps next.1 = true := overlaps_iff_exists.2 ⟨offset, hr', hoffset⟩
    exact ((h.linked p hp q hq).mono hsubset).trans
      (Linked.of_overlaps (hsubset _ hr) (by simp) hlink)
  refine ⟨?_, ?_, ?_⟩
  · rw [List.map_append]
    exact h.hull.cover hoverlap
  · intro p hp q hq
    rcases List.mem_append.1 hp with hp | hp <;> rcases List.mem_append.1 hq with hq | hq
    · exact (h.linked p hp q hq).mono hsubset
    · rw [List.mem_singleton.1 hq]
      exact hnext p hp
    · rw [List.mem_singleton.1 hp]
      exact (hnext q hq).symm
    · rw [List.mem_singleton.1 hp, List.mem_singleton.1 hq]
      exact .refl
  · rw [Bool.or_eq_true, h.marked, beq_iff_eq, List.map_append, List.mem_append,
      List.map_singleton, List.mem_singleton, eq_comm (a := main)]

end Component

section Merging

variable {main : Nat} {components : List (List (Selection × Nat))}
  {merged : List (Selection × Bool)} {ordered : List (Selection × Nat)}

/-- The next selection goes into the latest component or begins one of its own. -/
theorem exists_components_mergeNext (h : List.Forall₂ (Component main) components merged)
    (next : Selection × Nat) :
    ∃ components', List.Forall₂ (Component main) components'
        (mergeNext merged (next.1, next.2 == main)) ∧
      components'.reverse.flatten = components.reverse.flatten ++ [next] := by
  cases h with
  | nil =>
      exact ⟨[[next]], .cons (component_singleton main next) .nil, by simp⟩
  | @cons members latest components earlier hlatest hearlier =>
      by_cases hoverlap : latest.1.overlaps next.1 = true
      · refine ⟨(members ++ [next]) :: components, ?_, by simp⟩
        simp only [mergeNext, if_pos hoverlap]
        exact .cons (hlatest.mergeNext hoverlap) hearlier
      · refine ⟨[next] :: members :: components, ?_, by simp⟩
        simp only [mergeNext, if_neg hoverlap]
        exact .cons (component_singleton main next) (.cons hlatest hearlier)

theorem exists_components_foldl (h : List.Forall₂ (Component main) components merged) :
    ∃ components', List.Forall₂ (Component main) components'
        ((ordered.map fun p => (p.1, p.2 == main)).foldl mergeNext merged) ∧
      components'.reverse.flatten = components.reverse.flatten ++ ordered := by
  induction ordered generalizing components merged with
  | nil => exact ⟨components, h, by simp⟩
  | cons next ordered ih =>
      rcases exists_components_mergeNext h next with ⟨between, hbetween, hflatten⟩
      rcases ih hbetween with ⟨components', hcomponents', hflatten'⟩
      exact ⟨components', hcomponents', by simp [hflatten', hflatten]⟩

theorem exists_component (h : List.Forall₂ (Component main) components merged) {i : Nat}
    (hi : i < components.length) :
    ∃ hi' : i < merged.length, Component main components[i] merged[i] := by
  rcases List.forall₂_iff_get.1 h with ⟨hlength, hcomponent⟩
  exact ⟨hlength ▸ hi, hcomponent i hi (hlength ▸ hi)⟩

end Merging

/-! ## Making a set -/

/-- The lists are the components of the selections that a set is made of, each selection
accompanied by its index, and the set stands for them. -/
structure Components (selections : List Selection) (main : Nat) (set : SelectionSet)
    (components : List (List (Selection × Nat))) : Prop where
  /-- One after the other, they are the selections in the order of their first offsets; equal ones
  keep their order. -/
  inOrder : components.flatten =
    selections.zipIdx.mergeSort fun p q => p.1.first ≤ q.1.first
  /-- Selections are in one component if they are linked. -/
  linked_iff : ∀ p ∈ selections.zipIdx, ∀ q ∈ selections.zipIdx,
    Linked selections p.1 q.1 ↔ ∃ c ∈ components, p ∈ c ∧ q ∈ c
  /-- The selections of the set are their hulls. -/
  hulls : List.Forall₂ (fun c s => Hull (c.map Prod.fst) s) components set.selections
  /-- The main one is the component of the selection of the given index, or of the last one. -/
  main_mem : ∃ c, components[set.main]? = some c ∧
    min main (selections.length - 1) ∈ c.map Prod.snd

theorem Components.mem_flatten_iff {selections : List Selection} {main : Nat} {set : SelectionSet}
    {components : List (List (Selection × Nat))} (h : Components selections main set components)
    (p : Selection × Nat) : p ∈ components.flatten ↔ p ∈ selections.zipIdx := by
  rw [h.inOrder, List.mem_mergeSort]

section Components

variable {selections : List Selection} {main : Nat}

/-- The selections are sorted together with their indices. -/
theorem arranged_eq_map (selections : List Selection) (main : Nat) :
    arranged selections main =
      (selections.zipIdx.mergeSort fun p q => p.1.first ≤ q.1.first).map fun p =>
        (p.1, p.2 == min main (selections.length - 1)) := by
  symm
  exact List.map_mergeSort (r := fun p q : Selection × Nat => p.1.first ≤ q.1.first)
    (f := fun p : Selection × Nat => (p.1, p.2 == min main (selections.length - 1)))
    fun _ _ _ _ => rfl

/-- The selections of a set are the hulls of the components. -/
theorem exists_components (hne : selections ≠ []) (main : Nat) :
    ∃ components, Components selections main (ofList selections main) components := by
  have hseparate := pairwise_ofList selections main
  have hmain := main_lt_size_ofList selections main
  rcases exists_components_foldl
      (show List.Forall₂ (Component (min main (selections.length - 1))) [] [] from .nil) with
    ⟨components, hcomponents, hflatten⟩
  rw [← arranged_eq_map] at hcomponents
  simp only [List.reverse_nil, List.flatten_nil, List.nil_append] at hflatten
  have hset := ofList_eq main hne
  have hreverse := List.forall₂_reverse_iff.2 hcomponents
  have hhulls : List.Forall₂ (fun c s => Hull (c.map Prod.fst) s) components.reverse
      (ofList selections main).selections := by
    rw [hset, List.forall₂_map_right_iff]
    exact hreverse.imp fun _ _ h => h.hull
  have hmem : ∀ p, p ∈ components.reverse.flatten ↔ p ∈ selections.zipIdx := by
    intro p
    rw [hflatten, List.mem_mergeSort]
  refine ⟨components.reverse, hflatten, ?_, hhulls, ?_⟩
  · intro p hp q hq
    constructor
    · exact fun hlinked => hlinked.exists_component hhulls hmem hseparate hp hq
    · rintro ⟨c, hc, hpc, hqc⟩
      rcases List.getElem_of_mem hc with ⟨i, hi, rfl⟩
      rcases exists_component hreverse hi with ⟨_, hcomponent⟩
      refine (hcomponent.linked p hpc q hqc).mono ?_
      intro r hr
      rcases List.mem_map.1 hr with ⟨o, ho, rfl⟩
      exact List.fst_mem_of_mem_zipIdx ((hmem o).1 (List.mem_flatten_of_mem hc ho))
  · rw [hset, size, List.length_map] at hmain
    dsimp only at hmain
    have hmarked := List.findIdx_getElem (w := hmain)
    have hi := Nat.lt_of_lt_of_eq hmain hreverse.length_eq.symm
    rcases exists_component hreverse hi with ⟨_, hcomponent⟩
    rw [hset]
    exact ⟨_, List.getElem?_eq_getElem hi, hcomponent.marked.1 hmarked⟩

/-- Every selection goes into one of the set. -/
theorem exists_mem_ofList {s : Selection} (hs : s ∈ selections) (main : Nat) :
    ∃ r ∈ (ofList selections main).selections, r.first ≤ s.first ∧ s.last ≤ r.last := by
  rcases exists_components (List.ne_nil_of_mem hs) main with ⟨components, h⟩
  exact exists_hull_of_mem h.hulls h.mem_flatten_iff hs

/-- A selection of the set covers what the selections do that are linked with one that went into
it. -/
theorem mem_ofList_iff {r s : Selection} (hr : r ∈ (ofList selections main).selections)
    (hs : s ∈ selections) (hrs : r.first ≤ s.first ∧ s.first ≤ r.last) (offset : Nat) :
    r.first ≤ offset ∧ offset ≤ r.last ↔
      ∃ t ∈ selections, Linked selections s t ∧ t.first ≤ offset ∧ offset ≤ t.last := by
  have hseparate := pairwise_ofList selections main
  rcases exists_components (List.ne_nil_of_mem hs) main with ⟨components, h⟩
  constructor
  · intro hoffset
    rcases exists_member h.hulls hr hoffset with ⟨c, p, hc, hpc, hpoffset⟩
    rw [← List.zipIdx_map_fst 0 selections] at hs
    rcases List.mem_map.1 hs with ⟨q, hq, rfl⟩
    rcases exists_hull h.hulls ((h.mem_flatten_iff q).2 hq) with ⟨d, t, hd, hqd, hqt⟩
    have hfirst := q.1.first_le_last
    have hequal := eq_of_mem_zip h.hulls hseparate hc hd hrs (by omega)
    have hp : p ∈ selections.zipIdx := (h.mem_flatten_iff p).1
      (List.mem_flatten_of_mem (List.of_mem_zip hc).1 hpc)
    exact ⟨p.1, List.fst_mem_of_mem_zipIdx hp,
      (h.linked_iff q hq p hp).2 ⟨d, (List.of_mem_zip hd).1, hqd, hequal ▸ hpc⟩, hpoffset⟩
  · rintro ⟨t, ht, hlinked, hoffset⟩
    have hrt := hlinked.first_mem_hull (fun s hs => exists_mem_ofList hs main) hseparate hr hrs
    have hfirst := t.first_le_last
    rcases exists_mem_ofList ht main with ⟨r', hr', hbounds⟩
    have hequal : r' = r := eq_of_common_offset (f := id) hseparate hr' hr
      (show r'.first ≤ t.first ∧ t.first ≤ r'.last by omega) hrt
    rw [← hequal]
    omega

/-- A set covers what the selections do that it is made of. -/
theorem covered_ofList_iff (hne : selections ≠ []) (main offset : Nat) :
    Covered (ofList selections main).selections offset ↔ Covered selections offset := by
  rcases exists_components hne main with ⟨components, h⟩
  constructor
  · rintro ⟨r, hr, hoffset⟩
    rcases exists_member h.hulls hr hoffset with ⟨c, p, hc, hpc, hpoffset⟩
    have hp : p ∈ selections.zipIdx := (h.mem_flatten_iff p).1
      (List.mem_flatten_of_mem (List.of_mem_zip hc).1 hpc)
    exact ⟨p.1, List.fst_mem_of_mem_zipIdx hp, hpoffset⟩
  · rintro ⟨s, hs, hoffset⟩
    rcases exists_mem_ofList hs main with ⟨r, hr, hbounds⟩
    exact ⟨r, hr, by omega⟩

/-- A set of any selections merges those that overlap: its selections are the hulls of the
components, and so they cover all that was covered, in order and without a common offset.  The main
one is the component of the selection whose index was given, or of the last one.  No selections at
all give the point at the start.  To make a set of the selections of a set again changes nothing. -/
theorem ofList_merges_overlaps (selections : List Selection) (main : Nat) :
    (selections ≠ [] →
      (∃ components, Components selections main (ofList selections main) components) ∧
        ∀ offset, Covered (ofList selections main).selections offset ↔
          Covered selections offset) ∧
      (selections = [] → ofList selections main = ⟨[.point 0], 0⟩) ∧
      (ofList selections main).selections.Pairwise (fun s t => s.last < t.first) ∧
      ofList (ofList selections main).selections (ofList selections main).main =
        ofList selections main := by
  have hseparate := pairwise_ofList selections main
  refine ⟨?_, ?_, hseparate, ?_⟩
  · intro hne
    exact ⟨exists_components hne main, covered_ofList_iff hne main⟩
  · rintro rfl
    rfl
  · exact ofList_of_pairwise hseparate (main_lt_size_ofList selections main)

/-- Three selections are linked, the last given of them in front; one borders on them, and one lies
apart.  There is no selection of the given index, so the last of the list is the main one. -/
theorem ofList_merges_overlaps_chain :
    (∃ components, Components [⟨6, 3⟩, .point 9, ⟨7, 8⟩, ⟨0, 2⟩, ⟨2, 4⟩, ⟨7, 7⟩] 9
        (ofList [⟨6, 3⟩, .point 9, ⟨7, 8⟩, ⟨0, 2⟩, ⟨2, 4⟩, ⟨7, 7⟩] 9) components) ∧
      ofList [⟨6, 3⟩, .point 9, ⟨7, 8⟩, ⟨0, 2⟩, ⟨2, 4⟩, ⟨7, 7⟩] 9 =
        ⟨[⟨0, 6⟩, ⟨7, 8⟩, .point 9], 1⟩ := by
  rcases ofList_merges_overlaps [⟨6, 3⟩, .point 9, ⟨7, 8⟩, ⟨0, 2⟩, ⟨2, 4⟩, ⟨7, 7⟩] 9 with
    ⟨hmerged, -⟩
  refine ⟨(hmerged (by decide)).1, ?_⟩
  simp [ofList, List.mergeSort, mergeNext, first, last, point, overlaps, cover, oriented,
    isBackward, List.findIdx, List.findIdx.go]

end Components

end SelectionSet

end HexEditor
