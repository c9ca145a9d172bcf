import HexEditor.Proofs.Edit.Insertion
import HexEditor.Proofs.Edit.Placement

/-!
# Where inserted and pasted bytes land

Inserting puts the same bytes in at every selection; pasting puts an entry in at each of them,
and the entries may be of different lengths or empty.  Both leave the number of the selections and
the main one, and what a selection then covers is what it covered before, together with its copy
if the bytes were inserted behind it, or what was pasted for it.  A selection that reaches the end
of the file is the last one of its set, so nothing is put in behind it but its own piece.  Lengths
are words, so the file that comes out has to leave room for the offset behind its end.

Main results:

- Theorem `Rope.Sound.exists_landed`: what comes out when a piece is put in at every selection.
- Theorem `Rope.insert_lands`: inserting, with the ranges and the bytes of the selections that it
  leaves.
- Definition `pasted`, what a selection receives, and theorem `Rope.paste_lands`: the same of
  pasting.
-/

namespace HexEditor

/-- The bytes that a selection covers after others have been put in at one side of it: only those
behind it are taken up. -/
def Side.joined (side : Side) (held bytes : Bytes) : Bytes :=
  match side with
  | .before => held
  | .after => held ++ bytes

/-! ## One selection -/

namespace Selection

variable {s t : Selection} {length total k n : Nat}

/-- Moving to the right leaves the direction. -/
theorem isBackward_shifted (h : s.last + k ≤ lastOffset) :
    (s.shifted k).isBackward = s.isBackward := by
  rcases last_le_iff.1 (Nat.le_refl s.last) with ⟨hanchor, hcursor⟩
  have hanchor' : shift k s.anchor = s.anchor + k := shift_natCast (by omega)
  have hcursor' : shift k s.cursor = s.cursor + k := shift_natCast (by omega)
  simp only [isBackward, shifted, hanchor', hcursor', Nat.add_lt_add_iff_right]

/-- An insertion leaves the direction. -/
theorem isBackward_inserted (hlast : s.last ≤ length) (hlength : length < lastOffset)
    (hroom : length + n ≤ lastOffset) (side : Side) :
    (s.inserted side length n).isBackward = s.isBackward := by
  rcases Nat.eq_zero_or_pos n with rfl | hn
  · rfl
  · cases side with
    | before =>
        rw [inserted_before hlast hroom]
        simp only [isBackward, Nat.add_lt_add_iff_right]
    | after =>
        have hfirst := s.first_le_last
        have hpoint := insertionPoint_after hlast hlength
        rw [inserted_after hlast hlength hn, isBackward_oriented _ (by omega)]
        intro hbackward
        have hlong := first_lt_last_of_isBackward hbackward
        omega

/-- A selection whose ends are moved alike covers what it covered before, provided the file has
grown only in front of it if it reached the end. -/
theorem covered_moved (hlast : s.last ≤ length) (hlength : length < lastOffset)
    (hfirst : t.first = s.first + k) (hlast' : t.last = s.last + k)
    (htotal : length + k ≤ total) (hend : s.last = length → total = length + k)
    (hroom : total < lastOffset) :
    t.covered total = ⟨(s.covered length).start + k, (s.covered length).stop + k⟩ := by
  rw [covered_eq (by omega) hroom, covered_eq hlast hlength, hfirst, hlast', Range.mk.injEq]
  dsimp only
  omega

/-- What an insertion leaves covers the bytes that were covered before, together with the inserted
ones if they were put in behind them. -/
theorem covered_inserted (hlast : s.last ≤ length) (hk : length + (k + n) ≤ total)
    (hend : s.last = length → total = length + (k + n)) (hroom : total < lastOffset)
    (side : Side) :
    ((s.inserted side length n).shifted k).covered total =
      ⟨(s.covered length).start + (if side = .before then k + n else k),
        (s.covered length).stop + (k + n)⟩ := by
  have hfirst := s.first_le_last
  rcases ends_shifted_inserted hlast (Nat.le_refl (k + n)) (by omega) side with
    ⟨hfirst', hlast'⟩
  cases side with
  | before =>
      rw [inserted_before hlast (by omega)] at hfirst' hlast' ⊢
      apply covered_moved hlast (by omega) _ _ hk hend hroom
      · simp only [first] at hfirst' ⊢
        omega
      · simp only [last] at hlast' ⊢
        omega
  | after =>
      rcases Nat.eq_zero_or_pos n with rfl | hn
      · -- without bytes the selection is only moved
        exact covered_moved hlast (by omega) hfirst' hlast' hk hend hroom
      · have hpoint := insertionPoint_after hlast (by omega)
        rw [inserted_after hlast (by omega) hn] at hfirst' hlast' ⊢
        rw [first_oriented _ (by omega)] at hfirst'
        rw [last_oriented] at hlast'
        rw [covered_eq (by omega) hroom, covered_eq hlast (by omega), hfirst', hlast',
          Range.mk.injEq, if_neg (by simp)]
        dsimp only
        omega

/-- The selection that is left when a piece is pasted at one. -/
def receiving (side : Side) (length : Nat) (piece : Bytes) (s : Selection) : Selection :=
  if piece.isEmpty then s
  else
    .ofRange ⟨s.insertionPoint side length, s.insertionPoint side length + piece.length⟩ false

theorem receiving_nil (s : Selection) (side : Side) (length : Nat) :
    s.receiving side length [] = s :=
  rfl

theorem receiving_of_ne_nil {piece : Bytes} (hpiece : piece ≠ []) (s : Selection) (side : Side)
    (length : Nat) :
    s.receiving side length piece =
      ⟨s.insertionPoint side length, s.insertionPoint side length + (piece.length - 1)⟩ := by
  have hpos := List.length_pos_iff.2 hpiece
  have hfull : (Range.mk (s.insertionPoint side length)
      (s.insertionPoint side length + piece.length)).isEmpty = false := by
    apply decide_eq_false
    dsimp only
    omega
  rw [receiving, if_neg (by rwa [List.isEmpty_iff]), ofRange, hfull, if_neg Bool.false_ne_true]
  dsimp only [oriented]
  rw [if_neg Bool.false_ne_true, Nat.add_sub_assoc hpos]

/-- A paste moves the selection no further than the piece reaches. -/
theorem bounds_receiving (hlast : s.last ≤ length) (hlength : length < lastOffset) (side : Side)
    (piece : Bytes) :
    s.first ≤ (s.receiving side length piece).first ∧
      (s.receiving side length piece).last ≤ s.last + piece.length := by
  by_cases hpiece : piece = []
  · rw [hpiece, receiving_nil]
    exact ⟨Nat.le_refl _, Nat.le_refl _⟩
  · have hpos := List.length_pos_iff.2 hpiece
    have hfirst := s.first_le_last
    have hpoint := first_le_insertionPoint hlast hlength side
    have hplace := insertionPoint_eq_place hlast hlength side
    rw [receiving_of_ne_nil hpiece, first_mk_add, last_mk_add]
    refine ⟨hpoint, ?_⟩
    cases side with
    | before =>
        rw [place] at hplace
        omega
    | after =>
        rw [place] at hplace
        omega

/-- What a paste leaves covers the piece, or what was covered before if the piece is empty. -/
theorem covered_receiving {piece : Bytes} (hlast : s.last ≤ length)
    (htotal : length + (k + piece.length) ≤ total)
    (hend : s.last = length → total = length + (k + piece.length)) (hroom : total < lastOffset)
    (side : Side) :
    ((s.receiving side length piece).shifted k).covered total =
      if piece = [] then ⟨(s.covered length).start + k, (s.covered length).stop + k⟩
      else ⟨s.place side length + k, s.place side length + (k + piece.length)⟩ := by
  have hlength : length < lastOffset := by omega
  have hfirst := s.first_le_last
  have hbounds := bounds_receiving hlast hlength side piece
  have hfirst' := first_shifted (s := s.receiving side length piece) (k := k) (by omega)
    (by omega)
  have hlast' := last_shifted (s := s.receiving side length piece) (k := k) (by omega) (by omega)
  by_cases hpiece : piece = []
  · rw [if_pos hpiece]
    rw [hpiece, List.length_nil] at htotal hend
    rw [hpiece, receiving_nil] at hfirst' hlast' ⊢
    exact covered_moved hlast hlength (by omega) (by omega) htotal hend hroom
  · have hpos := List.length_pos_iff.2 hpiece
    have hpoint := s.insertionPoint_le side length
    rw [insertionPoint_eq_place hlast hlength] at hpoint
    rw [receiving_of_ne_nil hpiece, insertionPoint_eq_place hlast hlength] at hfirst' hlast' ⊢
    rw [first_mk_add] at hfirst'
    rw [last_mk_add] at hlast'
    rw [if_neg hpiece, covered_eq (by omega) hroom, Range.mk.injEq]
    omega

end Selection

namespace SelectionSet

variable {set : SelectionSet} {length i : Nat} {s : Selection}

/-- A selection that reaches behind the last byte is the last one. -/
theorem Valid.succ_eq_size (h : set.Valid length) (hs : (s, i) ∈ set.selections.zipIdx)
    (hlast : s.last = length) : i + 1 = set.size := by
  rcases LocalEdit.exists_parts h.separate hs with ⟨front, back, hsplit, rfl, -, hback⟩
  have hnone : back = [] := by
    rw [List.eq_nil_iff_forall_not_mem]
    intro t ht
    have hlt := hback t ht
    have hfirst := t.first_le_last
    have hend := h.last_le t (by rw [hsplit]; simp [ht])
    omega
  rw [SelectionSet.size, hsplit, hnone, List.length_append, List.length_singleton]

/-- How far the pieces of a selection and of those in front of it reach. -/
theorem Valid.ahead_le (h : set.Valid length) (hs : (s, i) ∈ set.selections.zipIdx)
    (piece : Nat → Bytes) :
    ahead piece (i + 1) ≤ ahead piece set.size ∧
      (s.last = length → ahead piece set.size = ahead piece (i + 1)) := by
  refine ⟨ahead_mono piece (List.snd_lt_of_mem_zipIdx hs), ?_⟩
  intro hlast
  rw [h.succ_eq_size hs hlast]

end SelectionSet

/-! ## All selections -/

namespace Rope

open Selection

variable {rope : Rope} {set : SelectionSet}

/-- When a piece is put in at every selection, the bytes come out with all pieces put in, and the
selections cover what is found of them one by one. -/
theorem Sound.exists_landed (h : rope.Sound) (hset : set.Valid rope.length) (side : Side)
    (piece : Nat → Bytes) (after : Selection → Nat → Selection)
    (hafter : ∀ s ∈ set.selections, ∀ j,
      s.first ≤ (after s j).first ∧ (after s j).last ≤ s.last + (piece j).length)
    (hroom : rope.length + ahead piece set.size < lastOffset) {range : Selection × Nat → Range}
    {text : Selection × Nat → Bytes}
    (hcovered : ∀ p ∈ set.selections.zipIdx,
      ((after p.1 p.2).shifted (ahead piece p.2)).covered (rope.length + ahead piece set.size) =
        range p)
    (hread : ∀ p ∈ set.selections.zipIdx,
      ((LocalEdit.patch 0 rope.toBytes
        (LocalEdit.placements side rope.length piece after 0 set.selections)).drop
          (range p).start).take ((range p).stop - (range p).start) = text p) :
    ∃ e, (rope.applyEdits set fun s i =>
        s.placement side rope.length (piece i) (after s i)) = .ok e ∧
      e.buffer.toBytes =
        putIn (set.selections.zipIdx.map fun p => (p.1.place side rope.length, piece p.2)) 0
          rope.toBytes ∧
      e.selections =
        ⟨set.selections.zipIdx.map fun p => (after p.1 p.2).shifted (ahead piece p.2),
          set.main⟩ ∧
      e.selections.Valid e.buffer.length ∧
      e.selections.coveredRanges e.buffer.length = set.selections.zipIdx.map range ∧
      e.buffer.yank e.selections = .ok (set.selections.zipIdx.map text) := by
  rcases h.exists_applyEdits_placements hset side piece after hafter hroom with
    ⟨e, he, hsound, hbytes, htotal, hselections, hvalid⟩
  refine ⟨e, he, ?_, hselections, hvalid, ?_, ?_⟩
  · have hlast := hset.last_le
    have hlength : rope.length < lastOffset := by omega
    rw [h.length_eq] at hbytes hlast hlength ⊢
    rw [hbytes, LocalEdit.patch_placements _ _ _ hset.separate hlast hlength]
  · rw [hselections, htotal, SelectionSet.coveredRanges, List.map_map]
    exact List.map_congr_left hcovered
  · rw [hsound.yank_eq, hselections, List.map_map]
    refine congrArg _ (List.map_congr_left fun p hp => ?_)
    rw [Function.comp_apply, held, ← hsound.length_eq, htotal, hcovered p hp, hbytes, hread p hp]

section Insert

variable {bytes : Bytes} {side : Side}

/-- What a selection holds after its copy and those in front of it have been put in. -/
theorem read_copied (h : rope.Sound) (hset : set.Valid rope.length)
    (hlength : rope.length < lastOffset) (after : Selection → Nat → Selection) {s : Selection}
    {i : Nat} (hs : (s, i) ∈ set.selections.zipIdx) :
    ((LocalEdit.patch 0 rope.toBytes
        (LocalEdit.placements side rope.length (fun _ => bytes) after 0 set.selections)).drop
        ((s.covered rope.length).start + side.passed i * bytes.length)).take
      ((s.covered rope.length).stop + (i + 1) * bytes.length -
        ((s.covered rope.length).start + side.passed i * bytes.length)) =
      side.joined (s.held rope.toBytes) bytes := by
  have hlast := hset.last_le
  rw [h.length_eq] at hlast hlength ⊢
  have hlast' := hlast s (List.fst_mem_of_mem_zipIdx hs)
  have hfirst := s.first_le_last
  have hsize := length_held hlast' hlength
  have hkept := LocalEdit.read_covered side (fun _ => bytes) after hset.separate hlast hlength hs
  rw [ahead_const] at hkept
  rw [covered_eq hlast' hlength]
  dsimp only
  cases side with
  | before =>
      rw [Side.passed] at hkept ⊢
      rw [Nat.add_sub_add_right, ← hsize, hkept, Side.joined]
  | after =>
      have hcopy := LocalEdit.read_piece .after (fun _ => bytes) after hset.separate hlast hlength hs
      rw [insertionPoint_after hlast' hlength, ahead_const] at hcopy
      have hwhole : min (s.last + 1) rope.toBytes.length + (i + 1) * bytes.length -
          (s.first + i * bytes.length) = (s.held rope.toBytes).length + bytes.length := by
        rw [Nat.succ_mul]
        omega
      have hbehind : s.first + i * bytes.length + (s.held rope.toBytes).length =
          min (s.last + 1) rope.toBytes.length + i * bytes.length := by omega
      rw [Side.passed] at hkept ⊢
      rw [hwhole, List.take_add, List.drop_drop, hkept, hbehind, hcopy, Side.joined]

/-- Inserting bytes puts a copy in at the place of every selection.  The number of the selections,
their directions and the main one stay.  Every selection covers the bytes that it covered before,
and behind them its own copy if that is the side. -/
theorem insert_lands (h : rope.Sound) (hset : set.Valid rope.length) (bytes : Bytes) (side : Side)
    (hroom : rope.length + set.size * bytes.length < lastOffset) :
    ∃ e, rope.insert set bytes side = .ok e ∧
      e.buffer.toBytes =
        putIn (set.selections.map fun s => (s.place side rope.length, bytes)) 0 rope.toBytes ∧
      e.selections.size = set.size ∧ e.selections.main = set.main ∧
      e.selections.selections.map isBackward = set.selections.map isBackward ∧
      e.selections.Valid e.buffer.length ∧
      e.selections.coveredRanges e.buffer.length =
        set.selections.zipIdx.map (fun (s, i) =>
          ⟨(s.covered rope.length).start + side.passed i * bytes.length,
            (s.covered rope.length).stop + (i + 1) * bytes.length⟩) ∧
      e.buffer.yank e.selections =
        .ok (set.selections.map fun s => side.joined (s.held rope.toBytes) bytes) := by
  have hlength : rope.length < lastOffset := by omega
  have hone := Nat.le_mul_of_pos_left bytes.length hset.size_pos
  -- how far the copy of a selection and those in front of it reach
  have hreach : ∀ p ∈ set.selections.zipIdx,
      p.2 * bytes.length + bytes.length ≤ set.size * bytes.length ∧
        (p.1.last = rope.length →
          set.size * bytes.length = p.2 * bytes.length + bytes.length) := by
    intro p hp
    have hahead := hset.ahead_le hp fun _ => bytes
    rwa [ahead_const, ahead_const, Nat.succ_mul] at hahead
  have hcovered : ∀ p ∈ set.selections.zipIdx,
      ((p.1.inserted side rope.length bytes.length).shifted
        (ahead (fun _ => bytes) p.2)).covered (rope.length + ahead (fun _ => bytes) set.size) =
          ⟨(p.1.covered rope.length).start + side.passed p.2 * bytes.length,
            (p.1.covered rope.length).stop + (p.2 + 1) * bytes.length⟩ := by
    intro p hp
    rcases hreach p hp with ⟨hle, hend⟩
    have hlast := hset.last_le p.1 (List.fst_mem_of_mem_zipIdx hp)
    rw [ahead_const, ahead_const, covered_inserted hlast (by omega) (fun h' => by rw [hend h'])
      (by omega) side, Range.mk.injEq, Nat.succ_mul]
    cases side with
    | before =>
        rw [Side.passed, Nat.succ_mul]
        exact ⟨rfl, rfl⟩
    | after => exact ⟨rfl, rfl⟩
  rcases h.exists_landed hset side (fun _ => bytes)
      (fun s _ => s.inserted side rope.length bytes.length)
      (fun s hs _ => bounds_inserted (hset.last_le s hs) hlength (by omega) side)
      (by rwa [ahead_const]) hcovered
      (fun p hp => read_copied h hset hlength _ hp) with
    ⟨e, he, hbytes, hselections, hvalid, hranges, hyank⟩
  refine ⟨e, (insert_eq ..).trans he, ?_, ?_, ?_, ?_, hvalid, hranges, ?_⟩
  · rw [hbytes]
    exact congrArg (putIn · 0 rope.toBytes)
      (LocalEdit.map_zipIdx_eq_map (fun s => (s.place side rope.length, bytes)) _)
  · rw [hselections, SelectionSet.size, List.length_map, List.length_zipIdx, SelectionSet.size]
  · rw [hselections]
  · rw [hselections, List.map_map, ← LocalEdit.map_zipIdx_eq_map]
    apply List.map_congr_left
    intro p hp
    rcases hreach p hp with ⟨hle, -⟩
    have hlast := hset.last_le p.1 (List.fst_mem_of_mem_zipIdx hp)
    have hbounds := bounds_inserted (n := bytes.length) hlast hlength (by omega) side
    rw [Function.comp_apply, ahead_const, isBackward_shifted (by omega),
      isBackward_inserted hlast hlength (by omega)]
  · rw [hyank]
    exact congrArg _ (LocalEdit.map_zipIdx_eq_map
      (fun s => side.joined (s.held rope.toBytes) bytes) set.selections)

/-- Two selections end where the file ends, the first on the last byte and the second behind it.
Each of them takes up its own copy. -/
theorem insert_lands_crowded :
    ∃ e, (Rope.ofBytes [1, 2]).insert ⟨[.point 1, .point 2], 1⟩ [7] .after = .ok e ∧
      e.buffer.toBytes = [1, 2, 7, 7] ∧
      e.selections.coveredRanges e.buffer.length = [⟨1, 3⟩, ⟨3, 4⟩] ∧
      e.buffer.yank e.selections = .ok [[2, 7], [7]] := by
  have hsound := sound_ofBytes [1, 2]
  have hlength : (Rope.ofBytes [1, 2]).length = 2 := by
    rw [hsound.length_eq, toBytes_ofBytes]
    rfl
  have hvalid : SelectionSet.Valid ⟨[.point 1, .point 2], 1⟩ (Rope.ofBytes [1, 2]).length := by
    rw [hlength]
    exact ⟨by decide, by decide, by decide⟩
  rcases insert_lands hsound hvalid [7] .after (by rw [hlength]; decide) with
    ⟨e, he, hbytes, -, -, -, -, hranges, hyank⟩
  rw [toBytes_ofBytes, hlength] at hbytes
  rw [hlength] at hranges
  rw [toBytes_ofBytes] at hyank
  refine ⟨e, he, hbytes.trans ?_, hranges.trans ?_, hyank.trans ?_⟩
  · decide
  · decide
  · rfl

end Insert

/-! ## Pasting -/

section Paste

variable {entries : List Bytes} {side : Side} {count : Nat}

/-- What the selection of an index receives: its entry, or the next one in turn if there are fewer
of them, as often as it is asked for. -/
def pasted (entries : List Bytes) (count i : Nat) : Bytes :=
  (List.replicate (max count 1) (entries.getD (i % entries.length) [])).flatten

theorem paste_eq (rope : Rope) (set : SelectionSet) (hentries : entries ≠ []) (side : Side)
    (count : Nat) :
    rope.paste set entries side count =
      rope.applyEdits set fun s i =>
        s.placement side rope.length (pasted entries count i)
          (s.receiving side rope.length (pasted entries count i)) := by
  have hrepeated : ∀ i,
      repeated (max count 1) (Registers.entryFor entries i) = pasted entries count i := by
    intro i
    rw [repeated, pasted, Registers.entryFor]
    split_ifs with hempty
    · rw [List.isEmpty_iff.1 hempty, List.flatten_replicate_nil]
    · rfl
  rw [paste, if_neg (by rwa [List.isEmpty_iff])]
  simp only [hrepeated]
  rfl

/-- What a selection holds after pieces have been pasted at all of them: its own, or what it held
before if its own is empty. -/
theorem read_pasted (h : rope.Sound) (hset : set.Valid rope.length)
    (hlength : rope.length < lastOffset) (side : Side) (piece : Nat → Bytes)
    (after : Selection → Nat → Selection) {s : Selection} {i : Nat}
    (hs : (s, i) ∈ set.selections.zipIdx) :
    let range : Range :=
      if piece i = [] then
        ⟨(s.covered rope.length).start + ahead piece i,
          (s.covered rope.length).stop + ahead piece i⟩
      else
        ⟨s.place side rope.length + ahead piece i,
          s.place side rope.length + ahead piece (i + 1)⟩
    ((LocalEdit.patch 0 rope.toBytes
        (LocalEdit.placements side rope.length piece after 0 set.selections)).drop
        range.start).take (range.stop - range.start) =
      if piece i = [] then s.held rope.toBytes else piece i := by
  have hlast := hset.last_le
  rw [h.length_eq] at hlast hlength ⊢
  have hlast' := hlast s (List.fst_mem_of_mem_zipIdx hs)
  by_cases hpiece : piece i = []
  · have hkept := LocalEdit.read_covered side piece after hset.separate hlast hlength hs
    -- an empty piece moves nothing, on whichever side it is put in
    have hpassed : ahead piece (side.passed i) = ahead piece i := by
      cases side with
      | before => rw [Side.passed, ahead_succ, hpiece, List.length_nil, Nat.add_zero]
      | after => rfl
    rw [hpassed, length_held hlast' hlength] at hkept
    simp only [if_pos hpiece, covered_eq hlast' hlength]
    rw [Nat.add_sub_add_right, hkept]
  · have hread := LocalEdit.read_piece side piece after hset.separate hlast hlength hs
    rw [insertionPoint_eq_place hlast' hlength] at hread
    simp only [if_neg hpiece]
    rw [ahead_succ, Nat.add_sub_add_left, Nat.add_sub_cancel_left, hread]

/-- Pasting entries puts what a selection receives in at its place.  The number of the selections
and the main one stay.  A selection covers just what it has received, or the bytes that it covered
before if that is nothing. -/
theorem paste_lands (h : rope.Sound) (hset : set.Valid rope.length) (hentries : entries ≠ [])
    (side : Side) (count : Nat)
    (hroom : rope.length + ahead (pasted entries count) set.size < lastOffset) :
    ∃ e, rope.paste set entries side count = .ok e ∧
      e.buffer.toBytes =
        putIn (set.selections.zipIdx.map fun p =>
          (p.1.place side rope.length, pasted entries count p.2)) 0 rope.toBytes ∧
      e.selections.size = set.size ∧ e.selections.main = set.main ∧
      e.selections.Valid e.buffer.length ∧
      e.selections.coveredRanges e.buffer.length =
        set.selections.zipIdx.map (fun (s, i) =>
          if pasted entries count i = [] then
            ⟨(s.covered rope.length).start + ahead (pasted entries count) i,
              (s.covered rope.length).stop + ahead (pasted entries count) i⟩
          else
            ⟨s.place side rope.length + ahead (pasted entries count) i,
              s.place side rope.length + ahead (pasted entries count) (i + 1)⟩) ∧
      e.buffer.yank e.selections =
        .ok (set.selections.zipIdx.map fun (s, i) =>
          if pasted entries count i = [] then s.held rope.toBytes
          else pasted entries count i) := by
  have hlength : rope.length < lastOffset := by omega
  have hcovered : ∀ p ∈ set.selections.zipIdx,
      ((p.1.receiving side rope.length (pasted entries count p.2)).shifted
        (ahead (pasted entries count) p.2)).covered
          (rope.length + ahead (pasted entries count) set.size) =
          if pasted entries count p.2 = [] then
            ⟨(p.1.covered rope.length).start + ahead (pasted entries count) p.2,
              (p.1.covered rope.length).stop + ahead (pasted entries count) p.2⟩
          else
            ⟨p.1.place side rope.length + ahead (pasted entries count) p.2,
              p.1.place side rope.length + ahead (pasted entries count) (p.2 + 1)⟩ := by
    intro p hp
    have hlast := hset.last_le p.1 (List.fst_mem_of_mem_zipIdx hp)
    rcases hset.ahead_le hp (pasted entries count) with ⟨hle, hend⟩
    rw [ahead_succ] at hle hend ⊢
    exact covered_receiving hlast (by omega) (fun h' => by rw [hend h']) (by omega) side
  rcases h.exists_landed hset side (pasted entries count)
      (fun s i => s.receiving side rope.length (pasted entries count i))
      (fun s hs i => bounds_receiving (hset.last_le s hs) hlength side _) hroom hcovered
      (fun p hp => read_pasted h hset hlength side _ _ hp) with
    ⟨e, he, hbytes, hselections, hvalid, hranges, hyank⟩
  refine ⟨e, (paste_eq _ _ hentries _ _).trans he, hbytes, ?_, ?_, hvalid, hranges, hyank⟩
  · rw [hselections, SelectionSet.size, List.length_map, List.length_zipIdx, SelectionSet.size]
  · rw [hselections]

/-- Of two entries the first goes round to the third selection, and the second one is empty. -/
theorem paste_lands_round :
    ∃ e, (Rope.ofBytes [1, 2, 3]).paste ⟨[.point 0, ⟨2, 1⟩, .point 3], 1⟩ [[7, 8], []] .after 0 =
        .ok e ∧
      e.buffer.toBytes = [1, 7, 8, 2, 3, 7, 8] ∧ e.selections.size = 3 ∧
      e.selections.main = 1 ∧
      e.selections.coveredRanges e.buffer.length = [⟨1, 3⟩, ⟨3, 5⟩, ⟨5, 7⟩] ∧
      e.buffer.yank e.selections = .ok [[7, 8], [2, 3], [7, 8]] := by
  have hsound := sound_ofBytes [1, 2, 3]
  have hlength : (Rope.ofBytes [1, 2, 3]).length = 3 := by
    rw [hsound.length_eq, toBytes_ofBytes]
    rfl
  have hvalid : SelectionSet.Valid ⟨[.point 0, ⟨2, 1⟩, .point 3], 1⟩
      (Rope.ofBytes [1, 2, 3]).length := by
    rw [hlength]
    exact ⟨by decide, by decide, by decide⟩
  rcases paste_lands hsound hvalid (show [[7, 8], []] ≠ [] by decide) .after 0
      (by rw [hlength]; decide) with ⟨e, he, hbytes, hsize, hmain, -, hranges, hyank⟩
  rw [toBytes_ofBytes, hlength] at hbytes
  rw [hlength] at hranges
  rw [toBytes_ofBytes] at hyank
  refine ⟨e, he, hbytes.trans ?_, hsize, hmain, hranges.trans ?_, hyank.trans ?_⟩
  · decide
  · decide
  · rfl

end Paste

end Rope

end HexEditor
