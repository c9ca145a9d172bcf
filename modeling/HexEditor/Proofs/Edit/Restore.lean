import HexEditor.Proofs.Edit.Patch
import HexEditor.Proofs.Rope.Reading

/-!
# Deleting and pasting back

Deleting leaves a point where each selection began, moved to the left by all that has been
deleted in front of it.  As long as no selection borders on the next one these points are
different, so what has been deleted can be pasted at them again, and every paste moves those
behind it back to the right by just what had been deleted.

Main results:

- Definitions `Selection.deletion` and `Selection.pasting`: the edits at one selection.
- Theorem `Rope.Sound.exists_delete_eq_patch`: what deleting leaves.
- Theorem `Rope.Sound.exists_paste_deleted`: pasting what has been deleted restores the bytes
  and the selections.
-/

namespace HexEditor

/-- An entry that is there is received by the selection of its index. -/
theorem Registers.entryFor_eq {entries : List Bytes} {index : Nat}
    (h : index < entries.length) : entryFor entries index = entries[index] := by
  rw [entryFor, Nat.mod_eq_of_lt h, List.getD_eq_getElem?_getD, List.getElem?_eq_getElem h]
  rfl

/-! ## One selection -/

namespace Selection

variable {s : Selection} {length : Nat}

@[simp]
theorem first_mk_add (low n : Nat) : (⟨low, low + n⟩ : Selection).first = low :=
  Nat.min_eq_left (Nat.le_add_right low n)

@[simp]
theorem last_mk_add (low n : Nat) : (⟨low, low + n⟩ : Selection).last = low + n :=
  Nat.max_eq_right (Nat.le_add_right low n)

/-- The deletion of the bytes below a selection, in a file of the given length. -/
def deletion (length : Nat) (s : Selection) : LocalEdit where
  range := s.covered length
  replacement := []
  after := if (s.covered length).isEmpty then s else .point (s.covered length).start

/-- The insertion of an entry in front of a selection, in a file of the given length. -/
def pasting (length : Nat) (s : Selection) (entry : Bytes) : LocalEdit where
  range := ⟨s.insertionPoint .before length, s.insertionPoint .before length⟩
  replacement := entry
  after :=
    if entry.isEmpty then s
    else
      .ofRange ⟨s.insertionPoint .before length,
        s.insertionPoint .before length + entry.length⟩ false

theorem covered_eq (hlast : s.last ≤ length) (hlength : length < lastOffset) :
    s.covered length = ⟨s.first, min (s.last + 1) length⟩ := by
  have hfirst := s.first_le_last
  rw [covered, behind_eq hlast hlength, Range.mk.injEq]
  omega

/-- A point is moved to the left as far as the offsets reach. -/
theorem shifted_point {offset : Nat} (h : offset ≤ lastOffset) (k : Nat) :
    (point offset).shifted (-(k : Int)) = point (offset - k) := by
  have hshift : shift (-(k : Int)) offset = offset - k := by
    rw [shift]
    omega
  simp only [shifted, point, hshift]

/-- A deletion leaves the point where the selection began. -/
theorem after_deletion (hlast : s.last ≤ length) (hlength : length < lastOffset) :
    (s.deletion length).after = .point s.first := by
  have hfirst := s.first_le_last
  rw [deletion, covered_eq hlast hlength]
  dsimp only
  split_ifs with hempty
  · -- without bytes below it the selection is the point behind the last byte
    have hends : s.anchor = s.first ∧ s.cursor = s.first := by
      have hstop := of_decide_eq_true hempty
      dsimp only at hstop
      simp only [first, last] at hlast hstop hfirst ⊢
      omega
    rcases s with ⟨anchor, cursor⟩
    exact (mk.injEq ..).mpr hends
  · rfl

theorem growth_deletion (hlast : s.last ≤ length) (hlength : length < lastOffset) :
    (s.deletion length).growth = -((min (s.last + 1) length - s.first : Nat) : Int) := by
  have hfirst := s.first_le_last
  have hproper : s.first ≤ min (s.last + 1) length := by omega
  have hrange : (s.deletion length).range = ⟨s.first, min (s.last + 1) length⟩ :=
    covered_eq hlast hlength
  rw [LocalEdit.growth, hrange, Range.size_eq (r := ⟨s.first, min (s.last + 1) length⟩) hproper
    (Nat.min_le_right _ _) hlength.le]
  exact Int.zero_sub _

/-- The bytes below a selection. -/
def held (bytes : Bytes) (s : Selection) : Bytes :=
  (bytes.drop (s.covered bytes.length).start).take
    ((s.covered bytes.length).stop - (s.covered bytes.length).start)

section Held

variable {bytes : Bytes}

theorem held_eq (hlast : s.last ≤ bytes.length) (hlength : bytes.length < lastOffset) :
    s.held bytes = (bytes.drop s.first).take (min (s.last + 1) bytes.length - s.first) := by
  rw [held, covered_eq hlast hlength]

theorem length_held (hlast : s.last ≤ bytes.length) (hlength : bytes.length < lastOffset) :
    (s.held bytes).length = min (s.last + 1) bytes.length - s.first := by
  have hfirst := s.first_le_last
  rw [held_eq hlast hlength, List.length_take, List.length_drop]
  omega

/-- The selection of just the bytes below a selection, or of the point where it begins. -/
theorem ofRange_covered (hlast : s.last ≤ bytes.length) (hlength : bytes.length < lastOffset) :
    ofRange (s.covered bytes.length) false =
      ⟨s.first, s.first + ((s.held bytes).length - 1)⟩ := by
  have hfirst := s.first_le_last
  rw [covered_eq hlast hlength, length_held hlast hlength, ofRange]
  dsimp only [oriented]
  rw [if_neg Bool.false_ne_true, mk.injEq]
  split_ifs with hempty
  · have hstop := of_decide_eq_true hempty
    dsimp only at hstop
    omega
  · have hstop := of_decide_eq_false (Bool.eq_false_iff.2 hempty)
    dsimp only at hstop
    omega

/-- That selection covers the same bytes. -/
theorem covered_ofRange_covered (hlast : s.last ≤ bytes.length)
    (hlength : bytes.length < lastOffset) :
    (ofRange (s.covered bytes.length) false).covered bytes.length = s.covered bytes.length := by
  have hfirst := s.first_le_last
  have hsize := length_held hlast hlength
  rw [ofRange_covered hlast hlength, covered_eq (by rw [last_mk_add]; omega) hlength,
    first_mk_add, last_mk_add, covered_eq hlast hlength, Range.mk.injEq]
  omega

/-- What has been deleted is pasted at the point that is left, and becomes the selection. -/
theorem pasting_point {total offset : Nat} (hwithin : offset ≤ total) (entry : Bytes) :
    (point offset).pasting total entry =
      ⟨⟨offset, offset⟩, entry, ⟨offset, offset + (entry.length - 1)⟩⟩ := by
  have hpoint : (point offset).insertionPoint .before total = offset := by
    rw [insertionPoint_before (by rw [last_point]; exact hwithin), first_point]
  rw [pasting, hpoint, LocalEdit.mk.injEq]
  refine ⟨rfl, rfl, ?_⟩
  cases entry with
  | nil => rfl
  | cons byte entry =>
      have hfull : (Range.mk offset (offset + (byte :: entry).length)).isEmpty = false := by
        apply decide_eq_false
        rw [List.length_cons]
        dsimp only
        omega
      rw [ofRange, hfull, if_neg (by simp), if_neg Bool.false_ne_true]
      rfl

end Held

end Selection

/-! ## All selections -/

namespace LocalEdit

open Selection

variable {selections : List Selection} {bytes : Bytes}

theorem chained_deletions (hseparate : selections.Pairwise fun s t => s.last < t.first)
    (length : Nat) : Chained 0 length (selections.map (deletion length)) :=
  chained_covered (fun _ => rfl) hseparate

/-- Deletions do not add bytes. -/
theorem sum_growth_deletions_le {length : Nat} (hlast : ∀ s ∈ selections, s.last ≤ length)
    (hlength : length < lastOffset) :
    ((selections.map (deletion length)).map growth).sum ≤ 0 := by
  induction selections with
  | nil => exact Int.le_refl _
  | cons s selections ih =>
      have hrest := ih fun t ht => hlast t (List.mem_cons_of_mem _ ht)
      rw [List.map_cons, List.map_cons, List.sum_cons,
        growth_deletion (hlast s List.mem_cons_self) hlength]
      omega

/-- The points that deletions leave are different, unless two selections border on each
other. -/
theorem spaced_deletions {offset total length : Nat} (low moved : Int)
    (hchained : Chained offset length (selections.map (deletion length)))
    (hapart : selections.Pairwise fun s t => s.last + 1 < t.first)
    (hlast : ∀ s ∈ selections, s.last ≤ length) (hlow : ∀ s ∈ selections, low ≤ s.first + moved)
    (htotal : (total : Int) =
      length + moved + ((selections.map (deletion length)).map growth).sum)
    (hlength : length < lastOffset) :
    Spaced total low moved (selections.map (deletion length)) := by
  induction selections generalizing offset low moved with
  | nil => trivial
  | cons s selections ih =>
      rcases hchained with ⟨-, -, hbehind⟩
      rcases List.pairwise_cons.1 hapart with ⟨hnext, hapart'⟩
      have hfirst := s.first_le_last
      have hlast' := hlast s List.mem_cons_self
      have hlow' := hlow s List.mem_cons_self
      have hrest := hbehind.le_sum_growth hlength.le
      have hstop : (s.deletion length).range.stop = min (s.last + 1) length := by
        rw [deletion, covered_eq hlast' hlength]
      rw [List.map_cons, List.map_cons, List.sum_cons, growth_deletion hlast' hlength] at htotal
      rw [hstop] at hrest
      refine ⟨?_, ?_, ?_⟩
      · rw [after_deletion hlast' hlength, first_point]
        exact hlow'
      · rw [after_deletion hlast' hlength, last_point]
        omega
      · rw [after_deletion hlast' hlength, last_point, growth_deletion hlast' hlength]
        refine ih _ _ hbehind hapart' (fun t ht => hlast t (List.mem_cons_of_mem _ ht)) ?_
          (by omega)
        intro t ht
        have hlt := hnext t ht
        omega

/-- Pastes in front of selections in order are in order. -/
theorem chained_pastings {offset total : Nat}
    (hseparate : selections.Pairwise fun s t => s.last < t.first)
    (hlast : ∀ s ∈ selections, s.last ≤ total) (hoffset : ∀ s ∈ selections, offset ≤ s.first)
    (hle : offset ≤ total) (entries : List Bytes) :
    Chained offset total (List.zipWith (pasting total) selections entries) := by
  induction selections generalizing offset entries with
  | nil => exact hle
  | cons s selections ih =>
      cases entries with
      | nil => exact hle
      | cons entry entries =>
          rcases List.pairwise_cons.1 hseparate with ⟨hnext, hseparate'⟩
          have hfirst := s.first_le_last
          have hlast' := hlast s List.mem_cons_self
          have hpoint : s.insertionPoint .before total = s.first := insertionPoint_before hlast'
          refine ⟨?_, Nat.le_refl _, ?_⟩
          · change offset ≤ s.insertionPoint .before total
            rw [hpoint]
            exact hoffset s List.mem_cons_self
          · change Chained (s.insertionPoint .before total) total _
            rw [hpoint]
            refine ih hseparate' (fun t ht => hlast t (List.mem_cons_of_mem _ ht)) ?_ (by omega) _
            intro t ht
            have hlt := hnext t ht
            omega

/-- The pastes of what has been deleted, at the points that the deletions have left when
`deleted` bytes had been deleted before. -/
def restorations (total : Nat) (bytes : Bytes) (deleted : Nat) (selections : List Selection) :
    List LocalEdit :=
  List.zipWith (pasting total) (settle (-(deleted : Int)) (selections.map (deletion bytes.length)))
    (selections.map (held bytes))

section Restorations

variable {s : Selection} {total deleted : Nat} {low : Int}

/-- The first of these pastes, and the others, if the points come out in order. -/
theorem restorations_cons (hlow : 0 ≤ low)
    (hspaced : Spaced total low (-(deleted : Int))
      ((s :: selections).map (deletion bytes.length)))
    (hlast : s.last ≤ bytes.length) (hlength : bytes.length < lastOffset) :
    deleted ≤ s.first ∧
      restorations total bytes deleted (s :: selections) =
        ⟨⟨s.first - deleted, s.first - deleted⟩, s.held bytes,
          ⟨s.first - deleted, s.first - deleted + ((s.held bytes).length - 1)⟩⟩ ::
        restorations total bytes (deleted + (s.held bytes).length) selections ∧
      Spaced total ((s.first - deleted + 1 : Nat) : Int)
        (-((deleted + (s.held bytes).length : Nat) : Int))
        (selections.map (deletion bytes.length)) := by
  have hfirst := s.first_le_last
  rcases hspaced with ⟨hfront, hwithin, hrest⟩
  rw [after_deletion hlast hlength] at hfront hwithin hrest
  rw [first_point] at hfront
  rw [last_point] at hwithin hrest
  have hdeleted : deleted ≤ s.first := by omega
  have hmoved : (point s.first).shifted (-(deleted : Int)) = point (s.first - deleted) :=
    shifted_point (by omega) deleted
  have hgrowth : -(deleted : Int) + (s.deletion bytes.length).growth =
      -((deleted + (s.held bytes).length : Nat) : Int) := by
    rw [growth_deletion hlast hlength, length_held hlast hlength]
    omega
  have hnext : (s.first : Int) + -(deleted : Int) + 1 = ((s.first - deleted + 1 : Nat) : Int) := by
    omega
  refine ⟨hdeleted, ?_, ?_⟩
  · rw [restorations, List.map_cons, List.map_cons, settle, List.zipWith_cons_cons,
      after_deletion hlast hlength, hmoved, pasting_point (by omega), hgrowth]
    rfl
  · rw [← hgrowth, ← hnext]
    exact hrest

/-- The pastes bring the selections back to where they were. -/
theorem settle_restorations (hlow : 0 ≤ low)
    (hspaced : Spaced total low (-(deleted : Int)) (selections.map (deletion bytes.length)))
    (hlast : ∀ s ∈ selections, s.last ≤ bytes.length) (hlength : bytes.length < lastOffset) :
    settle deleted (restorations total bytes deleted selections) =
      selections.map fun s => ofRange (s.covered bytes.length) false := by
  induction selections generalizing deleted low with
  | nil => rfl
  | cons s selections ih =>
      have hfirst := s.first_le_last
      have hlast' := hlast s List.mem_cons_self
      rcases restorations_cons hlow hspaced hlast' hlength with ⟨hdeleted, hcons, hrest⟩
      have hsize := length_held hlast' hlength
      have hback := ih (Int.natCast_nonneg _) hrest fun t ht =>
        hlast t (List.mem_cons_of_mem _ ht)
      rw [hcons, settle, growth_point, ← Int.natCast_add, hback, List.map_cons,
        ofRange_covered hlast' hlength]
      congr 1
      simp only [shifted]
      rw [shift, shift, Selection.mk.injEq]
      omega

/-- The selections that the pastes leave come out in order. -/
theorem spaced_restorations {low' : Int} (hlow : 0 ≤ low)
    (hspaced : Spaced total low (-(deleted : Int)) (selections.map (deletion bytes.length)))
    (hapart : selections.Pairwise fun s t => s.last + 1 < t.first)
    (hlast : ∀ s ∈ selections, s.last ≤ bytes.length) (hlow' : ∀ s ∈ selections, low' ≤ s.first)
    (hlength : bytes.length < lastOffset) :
    Spaced bytes.length low' deleted (restorations total bytes deleted selections) := by
  induction selections generalizing deleted low low' with
  | nil => trivial
  | cons s selections ih =>
      rcases List.pairwise_cons.1 hapart with ⟨hnext, hapart'⟩
      have hfirst := s.first_le_last
      have hlast' := hlast s List.mem_cons_self
      have hfront := hlow' s List.mem_cons_self
      rcases restorations_cons hlow hspaced hlast' hlength with ⟨hdeleted, hcons, hrest⟩
      have hsize := length_held hlast' hlength
      rw [hcons]
      refine ⟨?_, ?_, ?_⟩
      · rw [first_mk_add]
        omega
      · rw [last_mk_add]
        omega
      · rw [last_mk_add, growth_point, ← Int.natCast_add]
        refine ih (Int.natCast_nonneg _) hrest hapart'
          (fun t ht => hlast t (List.mem_cons_of_mem _ ht)) ?_
        intro t ht
        have hlt := hnext t ht
        omega

/-- The pastes bring the bytes back.  The induction carries how many bytes had been deleted in
front of the offset. -/
theorem patch_restorations (offset : Nat) (hlow : 0 ≤ low)
    (hspaced : Spaced total low (-(deleted : Int)) (selections.map (deletion bytes.length)))
    (hchained : Chained offset bytes.length (selections.map (deletion bytes.length)))
    (hlast : ∀ s ∈ selections, s.last ≤ bytes.length) (hdeleted : deleted ≤ offset)
    (hlength : bytes.length < lastOffset) :
    patch (offset - deleted)
        (patch offset (bytes.drop offset) (selections.map (deletion bytes.length)))
        (restorations total bytes deleted selections) =
      bytes.drop offset := by
  induction selections generalizing deleted offset low with
  | nil => rfl
  | cons s selections ih =>
      have hfirst := s.first_le_last
      have hlast' := hlast s List.mem_cons_self
      have hrange : (s.deletion bytes.length).range =
          ⟨s.first, min (s.last + 1) bytes.length⟩ := covered_eq hlast' hlength
      rcases restorations_cons hlow hspaced hlast' hlength with ⟨-, hcons, hrest⟩
      have hsize := length_held hlast' hlength
      rcases hchained with ⟨hfront, -, hbehind⟩
      rw [hrange] at hfront hbehind
      dsimp only at hfront hbehind
      have hback := ih _ (Int.natCast_nonneg _) hrest hbehind
        (fun t ht => hlast t (List.mem_cons_of_mem _ ht))
        (show deleted + (s.held bytes).length ≤ min (s.last + 1) bytes.length by omega)
      -- the bytes up to the selection, those below it, and those behind it
      have hkept : ((bytes.drop offset).take (s.first - offset)).length =
          s.first - deleted - (offset - deleted) := by
        rw [List.length_take, List.length_drop]
        omega
      have hpoint : min (s.last + 1) bytes.length - (deleted + (s.held bytes).length) =
          s.first - deleted := by
        omega
      have hparts : s.held bytes ++ bytes.drop (min (s.last + 1) bytes.length) =
          bytes.drop s.first := by
        have hstop : s.first + (min (s.last + 1) bytes.length - s.first) =
            min (s.last + 1) bytes.length := by omega
        rw [held_eq hlast' hlength, ← hstop, ← List.drop_drop, hstop, List.take_append_drop]
      have hdropped : (bytes.drop offset).drop (min (s.last + 1) bytes.length - offset) =
          bytes.drop (min (s.last + 1) bytes.length) := by
        rw [List.drop_drop, Nat.add_sub_cancel' (by omega)]
      have hfrom : bytes.drop s.first = (bytes.drop offset).drop (s.first - offset) := by
        rw [List.drop_drop, Nat.add_sub_cancel' hfront]
      have hnone : (s.deletion bytes.length).replacement = [] := rfl
      rw [hpoint] at hback
      rw [hcons, List.map_cons, patch, patch, hrange]
      dsimp only
      rw [hdropped, hnone, List.append_nil, ← hkept, List.take_left, List.drop_left, hback,
        List.append_assoc, hparts, hfrom, List.take_append_drop]

end Restorations

end LocalEdit

/-! ## All bytes -/

namespace Rope

open Selection

variable {rope : Rope} {set : SelectionSet}

/-- The bytes below the selections are copied. -/
theorem Sound.yank_eq (h : rope.Sound) (set : SelectionSet) :
    rope.yank set = .ok (set.selections.map (held rope.toBytes)) := by
  rw [yank, SelectionSet.coveredRanges, h.length_eq]
  induction set.selections with
  | nil => rfl
  | cons s selections ih =>
      have hholds : rope.Holds (s.covered rope.toBytes.length) := by
        refine ⟨s.start_covered_le_stop _, ?_⟩
        rw [h.length_eq]
        exact s.stop_covered_le _
      rw [List.map_cons, List.mapM_cons, h.slice_eq hholds, ih]
      rfl

/-- Deleting leaves different points, if no selection borders on the next one. -/
theorem Sound.exists_delete_eq_patch (h : rope.Sound) (hset : set.Valid rope.length)
    (hlength : rope.length < lastOffset)
    (hapart : set.selections.Pairwise fun s t => s.last + 1 < t.first) :
    ∃ e, rope.delete set = .ok e ∧ e.buffer.Sound ∧
      e.buffer.toBytes =
        LocalEdit.patch 0 rope.toBytes (set.selections.map (deletion rope.length)) ∧
      e.selections =
        ⟨LocalEdit.settle 0 (set.selections.map (deletion rope.length)), set.main⟩ ∧
      e.selections.Valid e.buffer.length ∧
      LocalEdit.Spaced e.buffer.length 0 0 (set.selections.map (deletion rope.length)) := by
  have hchained := LocalEdit.chained_deletions hset.separate rope.length
  have hshrunk := LocalEdit.length_patch hchained hlength.le
    (show 0 + rope.toBytes.length = rope.length by rw [h.length_eq, Nat.zero_add])
  rw [← h.length_eq] at hshrunk
  have hspaced := LocalEdit.spaced_deletions 0 0 hchained hapart hset.last_le
    (fun s _ => by omega) (by rw [Int.add_zero]; exact hshrunk) hlength
  have hshorter := LocalEdit.sum_growth_deletions_le hset.last_le hlength
  rcases h.exists_applyEdits_eq_patch hset.main_lt (fun s _ => deletion rope.length s)
      (LocalEdit.map_zipIdx_eq_map ..) hchained hspaced (by omega) with
    ⟨e, he, hsound, hbytes, hselections, hvalid⟩
  rw [← hbytes, ← hsound.length_eq] at hspaced
  exact ⟨e, he, hsound, hbytes, hselections, hvalid, hspaced⟩

/-- Pasting entries once, in front of the selections. -/
theorem paste_once_eq (rope : Rope) (set : SelectionSet) {entries : List Bytes}
    (hentries : entries ≠ []) :
    rope.paste set entries .before 1 =
      rope.applyEdits set fun s i => pasting rope.length s (Registers.entryFor entries i) := by
  have honce : ∀ entry : Bytes, repeated (max 1 1) entry = entry := by
    intro entry
    cases entry with
    | nil => rfl
    | cons byte entry => simp [repeated]
  rw [paste, if_neg (by rwa [List.isEmpty_iff])]
  simp only [honce]
  rfl

/-- With one entry for each selection, every selection receives its own. -/
theorem map_entryFor_eq_zipWith {edit : Selection → Bytes → LocalEdit}
    {selections : List Selection} {entries : List Bytes}
    (hsize : entries.length = selections.length) :
    selections.zipIdx.map (fun p => edit p.1 (Registers.entryFor entries p.2)) =
      List.zipWith edit selections entries := by
  apply List.ext_getElem
  · simp [hsize]
  · intro i hi _
    have hlt : i < entries.length := by
      rw [List.length_map, List.length_zipIdx] at hi
      omega
    simp [Registers.entryFor_eq hlt]

/-- Pasting what has been deleted, in front of the points that are left, restores the bytes.
Each paste selects the bytes that were selected before.  The version may have been marked in
between. -/
theorem Sound.exists_paste_deleted (h : rope.Sound) (hset : set.Valid rope.length)
    (hlength : rope.length < lastOffset)
    (hapart : set.selections.Pairwise fun s t => s.last + 1 < t.first) {cut : Edited}
    (hcut : rope.delete set = .ok cut) {next : Rope} (hnext : next.Sound)
    (hbytes : next.toBytes = cut.buffer.toBytes) :
    ∃ e, next.paste cut.selections (set.selections.map (held rope.toBytes)) .before 1 = .ok e ∧
      e.buffer.toBytes = rope.toBytes ∧
      e.selections =
        ⟨set.selections.map fun s => ofRange (s.covered rope.length) false, set.main⟩ := by
  rcases h.exists_delete_eq_patch hset hlength hapart with
    ⟨d, hd, hsound, hpatched, hselections, hvalid, hspaced⟩
  rw [hcut] at hd
  cases hd
  have hsame : next.length = cut.buffer.length := by
    rw [hnext.length_eq, hbytes, ← hsound.length_eq]
  rw [← hsame] at hvalid hspaced
  have hwhole := h.length_eq
  rw [hwhole] at hlength hpatched hselections hspaced
  have hlast := hset.last_le
  rw [hwhole] at hlast
  have hnonempty : set.selections.map (held rope.toBytes) ≠ [] := by
    rw [← List.length_pos_iff, List.length_map]
    exact hset.size_pos
  -- what is pasted at the points, and what it leaves
  have hedits : cut.selections.selections.zipIdx.map (fun p => pasting next.length p.1
      (Registers.entryFor (set.selections.map (held rope.toBytes)) p.2)) =
        LocalEdit.restorations next.length rope.toBytes 0 set.selections := by
    rw [map_entryFor_eq_zipWith (by rw [hselections]; simp), hselections]
    rfl
  have hchained : LocalEdit.Chained 0 next.length
      (LocalEdit.restorations next.length rope.toBytes 0 set.selections) := by
    have hpastes := LocalEdit.chained_pastings hvalid.separate hvalid.last_le
      (fun _ _ => Nat.zero_le _) (Nat.zero_le _) (set.selections.map (held rope.toBytes))
    rw [hselections] at hpastes
    exact hpastes
  have hrestored : LocalEdit.patch 0 next.toBytes
      (LocalEdit.restorations next.length rope.toBytes 0 set.selections) = rope.toBytes := by
    rw [hbytes, hpatched]
    exact LocalEdit.patch_restorations 0 (Int.le_refl _) hspaced
      (LocalEdit.chained_deletions hset.separate _) hlast (Nat.le_refl _) hlength
  have hspaced' : LocalEdit.Spaced rope.toBytes.length 0 0
      (LocalEdit.restorations next.length rope.toBytes 0 set.selections) :=
    LocalEdit.spaced_restorations (Int.le_refl _) hspaced hapart hlast
      (fun _ _ => Int.natCast_nonneg _) hlength
  rcases hnext.exists_applyEdits_eq_patch hvalid.main_lt
    (fun s i => pasting next.length s
      (Registers.entryFor (set.selections.map (held rope.toBytes)) i)) hedits hchained
    (by rw [hrestored]; exact hspaced') (by rw [hrestored]; exact hlength.le) with
    ⟨e, he, -, hback, hsettled, -⟩
  rw [hrestored] at hback
  refine ⟨e, (paste_once_eq _ _ hnonempty).trans he, hback, ?_⟩
  rw [hsettled, hselections, hwhole]
  congr 1
  exact LocalEdit.settle_restorations (Int.le_refl _) hspaced hlast hlength

end Rope

end HexEditor
