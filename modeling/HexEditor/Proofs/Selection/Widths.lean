import HexEditor.Proofs.Selection.Components
import HexEditor.Proofs.Selection.Matching
import Mathlib.Algebra.Order.Floor.Div

/-!
# Cutting into pieces of one width

A selection is cut into pieces of a given width from its first offset on, and the last piece takes
what is left.  The offset at which the next piece begins is a word.  It could go round and lead back
into the selection, but not as long as the width still fits behind the last offset: then it is not
computed any more once the end of the selection has been reached.  So the cutting ends by itself,
after as many rounds as there are pieces.

Pieces of one selection border on each other, and on those of the next one if the selections do.
They share no offset, so none of them are merged.

Main results:

- Definition `Selection.CutFrom` and theorem `Selection.exists_cutFrom`: the rounds of the cutting.
- Definition `Selection.CutAtWidth` and theorem `Selection.CutFrom.cutAtWidth`: what a selection is
  cut into.
- Theorem `SelectionSet.splitWidth_cuts`: what it does to a set of selections.
-/

namespace HexEditor

namespace Selection

variable {s t u : Selection} {width offset : Nat} {pieces : List Selection}

/-! ## One selection -/

/-- The pieces that a selection is cut into from an offset on. -/
inductive CutFrom (width : Nat) (s : Selection) : (offset : Nat) → (pieces : List Selection) →
    Prop where
  /-- What is left fits into one piece. -/
  | rest {offset : Nat} (hle : offset ≤ s.last) (hshort : s.last < offset + width) :
      CutFrom width s offset [oriented s.isBackward offset s.last]
  /-- There is more than one piece left. -/
  | piece {offset : Nat} {pieces : List Selection} (hlong : offset + width ≤ s.last)
      (behind : CutFrom width s (offset + width) pieces) :
      CutFrom width s offset (oriented s.isBackward offset (offset + width - 1) :: pieces)

theorem withDirection_mk (backward : Bool) {low high : Nat} (h : low ≤ high) :
    withDirection backward ⟨low, high⟩ = oriented backward low high := by
  simp [withDirection, first, last, h]

/-- A selection can be cut from any of its offsets on, and the loop that does it comes to its end by
itself if it is given as many rounds as there are pieces. -/
theorem exists_cutFrom (hwidth : 0 < width) (hroom : s.last + width ≤ offsetCount) {offset : Nat}
    (hoffset : offset ≤ s.last) :
    ∃ pieces, CutFrom width s offset pieces ∧ ∀ made rounds, pieces.length ≤ rounds →
      SelectionSet.widthPieces width s made rounds offset = made.reverse ++ pieces := by
  by_cases hlong : offset + width ≤ s.last
  · obtain ⟨pieces, hcut, hrounds⟩ := exists_cutFrom hwidth hroom hlong
    refine ⟨_, .piece hlong hcut, ?_⟩
    intro made rounds hle
    obtain ⟨rounds, rfl⟩ := Nat.exists_eq_add_of_le' (Nat.one_le_of_lt hle)
    -- neither the end of the piece nor the offset behind it goes round
    have hend : wrap (offset + width - 1) = offset + width - 1 := Nat.mod_eq_of_lt (by omega)
    have hnext : wrap (offset + width) = offset + width := Nat.mod_eq_of_lt (by omega)
    have hmin : min s.last (offset + width - 1) = offset + width - 1 := by omega
    have hmore : offset + width - 1 ≠ s.last := by omega
    simp only [SelectionSet.widthPieces, Nat.not_lt.2 hoffset, hend, hmin, hmore, hnext, if_false,
      withDirection_mk s.isBackward (show offset ≤ offset + width - 1 by omega)]
    rw [hrounds _ _ (by simpa using hle)]
    simp
  · refine ⟨_, .rest hoffset (by omega), ?_⟩
    intro made rounds hle
    obtain ⟨rounds, rfl⟩ := Nat.exists_eq_add_of_le' hle
    have hend : wrap (offset + width - 1) = offset + width - 1 := Nat.mod_eq_of_lt (by omega)
    have hmin : min s.last (offset + width - 1) = s.last := by omega
    simp [SelectionSet.widthPieces, Nat.not_lt.2 hoffset, hend, hmin,
      withDirection_mk s.isBackward hoffset]
termination_by s.last - offset

/-! ## What it is cut into -/

/-- The pieces make up the selection from its first offset to its last, and all of them but the last
one have the given width. -/
structure CutAtWidth (width : Nat) (s : Selection) (pieces : List Selection) : Prop where
  /-- There are as many of them as it takes. -/
  length_eq : pieces.length = (s.last - s.first + 1) ⌈/⌉ width
  /-- Each of them begins behind the one before it, without a gap. -/
  consecutive : pieces.IsChain fun t u => t.last + 1 = u.first
  /-- The first of them begins where the selection does. -/
  head_eq : pieces.head?.map first = some s.first
  /-- The last of them ends where the selection does. -/
  getLast_eq : pieces.getLast?.map last = some s.last
  /-- An offset is covered by the selection if it is by one of them. -/
  covers : ∀ offset, s.first ≤ offset ∧ offset ≤ s.last ↔ Covered pieces offset
  /-- All but the last have the width. -/
  wide : ∀ t ∈ pieces.dropLast, t.last - t.first + 1 = width
  /-- The last has no more. -/
  narrow : ∀ t ∈ pieces, t.last - t.first + 1 ≤ width
  /-- They have the direction of the selection; one offset is a point. -/
  directed : ∀ t ∈ pieces, t = oriented s.isBackward t.first t.last

namespace CutFrom

theorem ne_nil (h : CutFrom width s offset pieces) : pieces ≠ [] := by
  cases h <;> simp

theorem head_eq (hwidth : 0 < width) (h : CutFrom width s offset pieces) :
    pieces.head?.map first = some offset := by
  cases h with
  | rest hle _ => simp [first_oriented _ hle]
  | piece hlong _ => simp [first_oriented _ (show offset ≤ offset + width - 1 by omega)]

/-- Every piece is a selection of offsets behind the place where the cutting began. -/
theorem eq_oriented (hwidth : 0 < width) (h : CutFrom width s offset pieces) (ht : t ∈ pieces) :
    t = oriented s.isBackward t.first t.last ∧ offset ≤ t.first ∧ t.last ≤ s.last ∧
      t.last - t.first + 1 ≤ width := by
  induction h with
  | @rest offset hle hshort =>
      have hfirst := first_oriented s.isBackward hle
      have hlast := last_oriented s.isBackward offset s.last
      simp only [List.mem_singleton.1 ht, hfirst, hlast, Nat.max_eq_right hle, true_and]
      omega
  | @piece offset pieces hlong behind ih =>
      have hle : offset ≤ offset + width - 1 := by omega
      have hfirst := first_oriented s.isBackward hle
      have hlast := last_oriented s.isBackward offset (offset + width - 1)
      rcases List.mem_cons.1 ht with rfl | ht
      · simp only [hfirst, hlast, Nat.max_eq_right hle, true_and]
        omega
      · have hbounds := ih ht
        exact ⟨hbounds.1, by omega, hbounds.2.2⟩

theorem separate (hwidth : 0 < width) (h : CutFrom width s offset pieces) :
    pieces.Pairwise fun t u => t.last < u.first := by
  induction h with
  | rest hle hshort => exact List.pairwise_singleton _ _
  | @piece offset pieces hlong behind ih =>
      refine List.pairwise_cons.2 ⟨?_, ih⟩
      intro t ht
      have hbehind := (eq_oriented hwidth behind ht).2.1
      rw [last_oriented]
      omega

theorem length_eq (hwidth : 0 < width) (h : CutFrom width s offset pieces) :
    pieces.length = (s.last - offset + 1) ⌈/⌉ width := by
  induction h with
  | @rest offset hle hshort =>
      rw [Nat.ceilDiv_eq_add_pred_div, List.length_singleton]
      exact (Nat.div_eq_of_lt_le (by omega) (by omega)).symm
  | @piece offset pieces hlong behind ih =>
      have hsplit : s.last - offset + 1 + width - 1 =
          s.last - (offset + width) + 1 + width - 1 + width := by omega
      rw [List.length_cons, ih, Nat.ceilDiv_eq_add_pred_div, Nat.ceilDiv_eq_add_pred_div, hsplit,
        Nat.add_div_right _ hwidth]

theorem consecutive (hwidth : 0 < width) (h : CutFrom width s offset pieces) :
    pieces.IsChain fun t u => t.last + 1 = u.first := by
  induction h with
  | rest hle hshort => exact List.isChain_singleton _
  | @piece offset pieces hlong behind ih =>
      refine List.isChain_cons.2 ⟨?_, ih⟩
      intro t ht
      have hhead := head_eq hwidth behind
      simp only [Option.mem_def.1 ht, Option.map_some, Option.some.injEq] at hhead
      rw [last_oriented, hhead]
      omega

theorem getLast_eq (h : CutFrom width s offset pieces) :
    pieces.getLast?.map last = some s.last := by
  induction h with
  | rest hle hshort => simp [Nat.max_eq_right hle]
  | @piece offset pieces hlong behind ih =>
      cases behind with
      | rest _ _ => simpa using ih
      | piece _ _ => simpa using ih

theorem wide (hwidth : 0 < width) (h : CutFrom width s offset pieces)
    (ht : t ∈ pieces.dropLast) : t.last - t.first + 1 = width := by
  induction h with
  | rest hle hshort => simp at ht
  | @piece offset pieces hlong behind ih =>
      rw [List.dropLast_cons_of_ne_nil behind.ne_nil] at ht
      rcases List.mem_cons.1 ht with rfl | ht
      · rw [first_oriented _ (by omega), last_oriented]
        omega
      · exact ih ht

theorem covers (hwidth : 0 < width) (h : CutFrom width s offset pieces) (k : Nat) :
    offset ≤ k ∧ k ≤ s.last ↔ Covered pieces k := by
  induction h with
  | @rest offset hle hshort =>
      simp [Covered, first_oriented _ hle, Nat.max_eq_right hle]
  | @piece offset pieces hlong behind ih =>
      have hle : offset ≤ offset + width - 1 := by omega
      rw [Covered, List.exists_mem_cons_iff, ← Covered, ← ih, first_oriented _ hle, last_oriented,
        Nat.max_eq_right hle]
      omega

/-- Cutting from the first offset on cuts the whole selection. -/
theorem cutAtWidth (hwidth : 0 < width) (h : CutFrom width s s.first pieces) :
    CutAtWidth width s pieces where
  length_eq := h.length_eq hwidth
  consecutive := h.consecutive hwidth
  head_eq := h.head_eq hwidth
  getLast_eq := h.getLast_eq
  covers := h.covers hwidth
  wide := fun _ => h.wide hwidth
  narrow := fun _ ht => (h.eq_oriented hwidth ht).2.2.2
  directed := fun _ ht => (h.eq_oriented hwidth ht).1

end CutFrom

end Selection

namespace SelectionSet

variable {set : SelectionSet} {length width : Nat}

/-! ## A set of selections -/

/-- Pieces of all selections of a set, and the rounds in which each is cut into its own. -/
theorem exists_pieces (set : SelectionSet) (hwidth : 0 < width)
    (hroom : ∀ s ∈ set.selections, s.last + width ≤ offsetCount) :
    ∃ pieces : Selection → List Selection, ∀ s ∈ set.selections,
      s.CutFrom width s.first (pieces s) ∧
        ∀ rounds, (pieces s).length ≤ rounds →
          widthPieces width s [] rounds s.first = pieces s := by
  have heach : ∀ s ∈ set.selections, ∃ pieces, s.CutFrom width s.first pieces ∧
      ∀ rounds, pieces.length ≤ rounds → widthPieces width s [] rounds s.first = pieces := by
    intro s hs
    obtain ⟨pieces, hcut, hrounds⟩ :=
      Selection.exists_cutFrom hwidth (hroom s hs) s.first_le_last
    exact ⟨pieces, hcut, fun rounds hle => by simpa using hrounds [] rounds hle⟩
  choose! pieces hpieces using heach
  exact ⟨pieces, hpieces⟩

/-- Pieces that take the place of the selections of a valid set are not merged, and the first piece
of the main selection becomes the main one. -/
theorem splitWidth_eq {pieces : Selection → List Selection} (hset : set.Valid length)
    (hcut : ∀ s ∈ set.selections, s.CutFrom (max width 1) s.first (pieces s))
    (hrounds : ∀ s ∈ set.selections,
      widthPieces (max width 1) s [] offsetCount s.first = pieces s) :
    set.splitWidth width = ⟨set.selections.flatMap pieces,
      ((set.selections.take set.main).flatMap pieces).length⟩ := by
  have hwidth : 0 < max width 1 := by omega
  have hsome : pieces set.mainSelection ≠ [] := (hcut _ hset.mainSelection_mem).ne_nil
  have hlt : ((set.selections.take set.main).flatMap pieces).length <
      (set.selections.flatMap pieces).length := by
    have hpos := List.length_pos_iff.2 hsome
    conv_rhs => rw [hset.selections_eq]
    simp only [List.flatMap_append, List.flatMap_cons, List.length_append]
    omega
  have hwithin : ∀ s ∈ set.selections, ∀ t ∈ pieces s, s.first ≤ t.first ∧ t.last ≤ s.last := by
    intro s hs t ht
    have hpiece := (hcut s hs).eq_oriented hwidth ht
    exact ⟨hpiece.2.1, hpiece.2.2.1⟩
  have hmap : set.selections.map (fun s => widthPieces (max width 1) s [] offsetCount s.first) =
      set.selections.map pieces := by
    simpa using hrounds
  unfold splitWidth replaceEach
  rw [hmap, ofReplacements_of_within hset.separate (fun s hs => (hcut s hs).separate hwidth)
    hwithin (List.length_pos_iff.1 (by omega)), Nat.min_eq_left (by omega)]

/-- Cutting all selections of a valid set.  The pieces of every selection take its place, none of
them are merged, and the first piece of the main selection becomes the main one.  The cutting of a
selection ends by itself, in as many rounds as it has pieces. -/
theorem splitWidth_cuts (hset : set.Valid length)
    (hroom : ∀ s ∈ set.selections, s.last + width < offsetCount) :
    ∃ pieces : Selection → List Selection,
      (∀ s ∈ set.selections, s.CutAtWidth (max width 1) (pieces s) ∧
        ∀ rounds, (pieces s).length ≤ rounds →
          widthPieces (max width 1) s [] rounds s.first = pieces s) ∧
      set.splitWidth width = ⟨set.selections.flatMap pieces,
        ((set.selections.take set.main).flatMap pieces).length⟩ ∧
      (pieces set.mainSelection).head? = some (set.splitWidth width).mainSelection := by
  have hwidth : 0 < max width 1 := by omega
  obtain ⟨pieces, hpieces⟩ := exists_pieces set hwidth
    fun s hs => by have := hroom s hs; omega
  have hrounds : ∀ s ∈ set.selections,
      widthPieces (max width 1) s [] offsetCount s.first = pieces s := by
    intro s hs
    apply (hpieces s hs).2
    have hlt := hroom s hs
    rw [(hpieces s hs).1.length_eq hwidth, ceilDiv_le_iff_le_mul hwidth]
    exact Nat.le_trans (by omega) (Nat.le_mul_of_pos_left offsetCount hwidth)
  have hsplit := splitWidth_eq hset (fun s hs => (hpieces s hs).1) hrounds
  refine ⟨pieces, ?_, hsplit, ?_⟩
  · intro s hs
    exact ⟨(hpieces s hs).1.cutAtWidth hwidth, (hpieces s hs).2⟩
  · obtain ⟨piece, behind, hne⟩ :=
      List.exists_cons_of_ne_nil (hpieces _ hset.mainSelection_mem).1.ne_nil
    have hselections : set.selections.flatMap pieces =
        (set.selections.take set.main).flatMap pieces ++
          (piece :: behind ++ (set.selections.drop (set.main + 1)).flatMap pieces) := by
      conv_lhs => rw [hset.selections_eq]
      simp [hne]
    rw [hsplit, hselections, hne]
    simp [mainSelection]

/-- Three bordering selections and the width three: the first is cut from its lower end on and stays
backward, and the main selection is found again behind its pieces. -/
theorem splitWidth_cuts_bordering :
    (⟨[⟨6, 0⟩, .point 7, ⟨8, 9⟩], 1⟩ : SelectionSet).splitWidth 3 =
      ⟨[⟨2, 0⟩, ⟨5, 3⟩, .point 6, .point 7, ⟨8, 9⟩], 3⟩ := by
  have hset : (⟨[⟨6, 0⟩, .point 7, ⟨8, 9⟩], 1⟩ : SelectionSet).Valid 9 :=
    ⟨by decide, by decide, by decide⟩
  have hroom : ∀ s ∈ [⟨6, 0⟩, .point 7, ⟨8, 9⟩], Selection.last s + 3 < offsetCount := by decide
  obtain ⟨pieces, hpieces, hsplit, -⟩ := splitWidth_cuts hset hroom
  have hfirst : pieces ⟨6, 0⟩ = [⟨2, 0⟩, ⟨5, 3⟩, .point 6] := by
    have hcut := hpieces ⟨6, 0⟩ (by simp)
    have hlength : (pieces ⟨6, 0⟩).length = 3 := hcut.1.length_eq
    rw [← hcut.2 3 (by omega)]
    decide
  have hsecond : pieces (.point 7) = [.point 7] := by
    have hcut := hpieces (.point 7) (by simp)
    have hlength : (pieces (.point 7)).length = 1 := hcut.1.length_eq
    rw [← hcut.2 1 (by omega)]
    decide
  have hthird : pieces ⟨8, 9⟩ = [⟨8, 9⟩] := by
    have hcut := hpieces ⟨8, 9⟩ (by simp)
    have hlength : (pieces ⟨8, 9⟩).length = 1 := hcut.1.length_eq
    rw [← hcut.2 1 (by omega)]
    decide
  simpa [hfirst, hsecond, hthird] using hsplit

end SelectionSet

end HexEditor
