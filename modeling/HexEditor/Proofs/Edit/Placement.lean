import HexEditor.Proofs.Edit.Parts
import HexEditor.Proofs.Edit.Restore

/-!
# Bytes put in at the selections

Inserting and pasting put a piece in at the insertion point of every selection.  What comes out
are the bytes with all pieces put in, where pieces of one offset come in the order of their
selections: two selections at the end of the file share their insertion point.  The pieces of the
selections in front move a selection to the right, and nothing else does, so both its own piece
and the bytes that it covered are found again.

Main results:

- Definition `putIn`: bytes with pieces put in at their offsets.
- Theorem `LocalEdit.patch_eq_putIn`: insertions at points lead to the bytes with the pieces put
  in.
- Definition `Selection.place`: the offset at which a piece is put in.
- Definition `ahead`: how long the pieces of the selections in front are.
- Theorem `Rope.Sound.exists_applyEdits_placements`: what a piece at every selection leaves.
- Theorems `LocalEdit.read_piece` and `LocalEdit.read_covered`: where the pieces and the covered
  bytes are found.
-/

namespace HexEditor

/-! ## Putting pieces in -/

/-- The pieces that are put in at an offset, in the order of the list. -/
def piecesAt (pieces : List (Nat × Bytes)) (offset : Nat) : Bytes :=
  (pieces.filter fun piece => piece.1 = offset).flatMap (·.2)

/-- The bytes from an offset on, with every piece put in in front of the byte at its own offset,
or behind the last byte. -/
def putIn (pieces : List (Nat × Bytes)) (offset : Nat) : Bytes → Bytes
  | [] => piecesAt pieces offset
  | byte :: bytes => piecesAt pieces offset ++ byte :: putIn pieces (offset + 1) bytes

section PutIn

variable {piece : Nat × Bytes} {pieces : List (Nat × Bytes)} {offset k : Nat}

theorem piecesAt_cons_of_eq (h : piece.1 = offset) :
    piecesAt (piece :: pieces) offset = piece.2 ++ piecesAt pieces offset := by
  rw [piecesAt, List.filter_cons_of_pos (by simpa using h), List.flatMap_cons]
  rfl

theorem piecesAt_cons_of_ne (h : piece.1 ≠ offset) :
    piecesAt (piece :: pieces) offset = piecesAt pieces offset := by
  rw [piecesAt, List.filter_cons_of_neg (by simpa using h)]
  rfl

theorem piecesAt_eq_nil (h : ∀ piece ∈ pieces, offset < piece.1) : piecesAt pieces offset = [] := by
  have hnone : (pieces.filter fun piece => piece.1 = offset) = [] := by
    rw [List.filter_eq_nil_iff]
    intro piece hpiece
    have hlt := h piece hpiece
    simp only [decide_eq_true_eq]
    omega
  rw [piecesAt, hnone]
  rfl

@[simp]
theorem putIn_nil (offset : Nat) (bytes : Bytes) : putIn [] offset bytes = bytes := by
  induction bytes generalizing offset with
  | nil => rfl
  | cons byte bytes ih => rw [putIn, ih, piecesAt_eq_nil (by simp), List.nil_append]

/-- A piece in front of the offset has been passed. -/
theorem putIn_cons_of_lt (h : piece.1 < offset) (bytes : Bytes) :
    putIn (piece :: pieces) offset bytes = putIn pieces offset bytes := by
  induction bytes generalizing offset with
  | nil => rw [putIn, putIn, piecesAt_cons_of_ne h.ne]
  | cons byte bytes ih =>
      rw [putIn, putIn, piecesAt_cons_of_ne h.ne, ih (Nat.lt_succ_of_lt h)]

/-- The first piece of the offset is put in. -/
theorem putIn_cons_of_eq (h : piece.1 = offset) (bytes : Bytes) :
    putIn (piece :: pieces) offset bytes = piece.2 ++ putIn pieces offset bytes := by
  cases bytes with
  | nil => rw [putIn, putIn, piecesAt_cons_of_eq h]
  | cons byte bytes =>
      rw [putIn, putIn, piecesAt_cons_of_eq h, putIn_cons_of_lt (by omega), List.append_assoc]

/-- In front of all pieces the bytes are kept. -/
theorem putIn_eq_take_append (h : ∀ piece ∈ pieces, offset + k ≤ piece.1) {bytes : Bytes}
    (hk : k ≤ bytes.length) :
    putIn pieces offset bytes = bytes.take k ++ putIn pieces (offset + k) (bytes.drop k) := by
  induction k generalizing offset bytes with
  | zero => rfl
  | succ k ih =>
      rcases bytes with _ | ⟨byte, bytes⟩
      · cases hk
      · have hnone : piecesAt pieces offset = [] := by
          apply piecesAt_eq_nil
          intro piece hpiece
          have hle := h piece hpiece
          omega
        have hrest := @ih (offset + 1)
          (fun piece hpiece => by have hle := h piece hpiece; omega) bytes
          (Nat.le_of_succ_le_succ hk)
        rw [putIn, hnone, hrest, Nat.add_right_comm, List.take_succ_cons, List.drop_succ_cons]
        rfl

end PutIn

/-- Insertions at points lead to the bytes with the pieces put in. -/
theorem LocalEdit.patch_eq_putIn {edits : List LocalEdit} {offset length : Nat} {bytes : Bytes}
    (h : Chained offset length edits) (hbytes : offset + bytes.length = length)
    (hpoints : ∀ e ∈ edits, e.range.stop = e.range.start) :
    patch offset bytes edits =
      putIn (edits.map fun e => (e.range.start, e.replacement)) offset bytes := by
  induction edits generalizing offset bytes with
  | nil => exact (putIn_nil offset bytes).symm
  | cons e edits ih =>
      have hpieces : ∀ piece ∈ (e :: edits).map (fun e => (e.range.start, e.replacement)),
          offset + (e.range.start - offset) ≤ piece.1 := by
        intro piece hpiece
        rcases List.mem_map.1 hpiece with ⟨f, hf, rfl⟩
        have hstart := (h.bounds List.mem_cons_self).1
        rcases h with ⟨-, hproper, hbehind⟩
        rcases List.mem_cons.1 hf with rfl | hf
        · omega
        · have hlater := (hbehind.bounds hf).1
          omega
      rcases h with ⟨hoffset, -, hbehind⟩
      have hpoint := hpoints e List.mem_cons_self
      have hlength := hbehind.offset_le_length
      have hoffset' : offset + (e.range.start - offset) = e.range.start := by omega
      rw [putIn_eq_take_append hpieces (by omega), hoffset', List.map_cons,
        putIn_cons_of_eq rfl, ← ih (hpoint ▸ hbehind) (by rw [List.length_drop]; omega)
          fun f hf => hpoints f (List.mem_cons_of_mem _ hf), patch, hpoint]
      simp only [List.append_assoc]

/-! ## The pieces of the selections in front -/

/-- How long the pieces in front of the one with the given index are together. -/
def ahead (piece : Nat → Bytes) (i : Nat) : Nat :=
  ((List.range i).map fun j => (piece j).length).sum

section Ahead

variable {piece : Nat → Bytes} {i j : Nat}

theorem ahead_succ (piece : Nat → Bytes) (i : Nat) :
    ahead piece (i + 1) = ahead piece i + (piece i).length := by
  rw [ahead, List.range_succ, List.map_append, List.sum_append]
  simp [ahead]

theorem ahead_mono (piece : Nat → Bytes) (h : i ≤ j) : ahead piece i ≤ ahead piece j := by
  induction h with
  | refl => exact Nat.le_refl _
  | step _ ih => exact ih.trans (by rw [ahead_succ]; exact Nat.le_add_right _ _)

/-- Copies of the same bytes. -/
theorem ahead_const (bytes : Bytes) (i : Nat) : ahead (fun _ => bytes) i = i * bytes.length := by
  induction i with
  | zero => exact (Nat.zero_mul _).symm
  | succ i ih => rw [ahead_succ, ih, Nat.succ_mul]

end Ahead

/-- How many of the pieces of a set are put in in front of the bytes that the selection of the
given index covers: its own comes in front of them or behind them. -/
def Side.passed (side : Side) (i : Nat) : Nat :=
  match side with
  | .before => i + 1
  | .after => i

namespace Selection

/-- Where bytes are put in: in front of the first offset, or behind the last one but not behind
the end of the file. -/
def place (side : Side) (length : Nat) (s : Selection) : Nat :=
  match side with
  | .before => s.first
  | .after => min (s.last + 1) length

theorem insertionPoint_eq_place {s : Selection} {length : Nat} (hlast : s.last ≤ length)
    (hlength : length < lastOffset) (side : Side) :
    s.insertionPoint side length = s.place side length := by
  cases side with
  | before => exact insertionPoint_before hlast
  | after => exact insertionPoint_after hlast hlength

/-- Nothing that is put in at a selection comes behind the beginning of a later one. -/
theorem insertionPoint_le_first {s t : Selection} {length : Nat} (h : s.last < t.first)
    (ht : t.last ≤ length) (hlength : length < lastOffset) (side : Side) :
    s.insertionPoint side length ≤ t.first := by
  have hfirst := s.first_le_last
  have hfirst' := t.first_le_last
  rw [insertionPoint_eq_place (by omega) hlength]
  cases side with
  | before =>
      rw [place]
      omega
  | after =>
      rw [place]
      omega

/-- Nothing that is put in at a selection comes in front of the end of an earlier one. -/
theorem le_insertionPoint {s t : Selection} {length : Nat} (h : s.last < t.first)
    (ht : t.last ≤ length) (hlength : length < lastOffset) (side : Side) :
    min (s.last + 1) length ≤ t.insertionPoint side length := by
  have hfirst := t.first_le_last
  rw [insertionPoint_eq_place ht hlength]
  cases side with
  | before =>
      rw [place]
      omega
  | after =>
      rw [place]
      omega

/-- A piece that is put in at the insertion point of a selection, which leaves another
selection. -/
def placement (s : Selection) (side : Side) (length : Nat) (piece : Bytes)
    (after : Selection) : LocalEdit where
  range := ⟨s.insertionPoint side length, s.insertionPoint side length⟩
  replacement := piece
  after := after

end Selection

namespace LocalEdit

open Selection

variable {selections front back : List Selection} {s : Selection} {side : Side} {length k i : Nat}
  {piece : Nat → Bytes} {after : Selection → Nat → Selection} {bytes : Bytes}

/-- A piece for every selection, where the first of them has the index `k`. -/
def placements (side : Side) (length : Nat) (piece : Nat → Bytes)
    (after : Selection → Nat → Selection) (k : Nat) (selections : List Selection) :
    List LocalEdit :=
  (selections.zipIdx k).map fun p => p.1.placement side length (piece p.2) (after p.1 p.2)

theorem growth_placement (s : Selection) (side : Side) (length : Nat) (piece : Bytes)
    (after : Selection) : (s.placement side length piece after).growth = piece.length :=
  growth_point _ _ _

theorem placements_append :
    placements side length piece after k (front ++ back) =
      placements side length piece after k front ++
        placements side length piece after (k + front.length) back := by
  rw [placements, List.zipIdx_append, List.map_append]
  rfl

theorem placements_cons :
    placements side length piece after k (s :: selections) =
      s.placement side length (piece k) (after s k) ::
        placements side length piece after (k + 1) selections := by
  rw [placements, List.zipIdx_cons, List.map_cons]
  rfl

theorem mem_placements {e : LocalEdit} (h : e ∈ placements side length piece after k selections) :
    ∃ s ∈ selections,
      e.range = ⟨s.insertionPoint side length, s.insertionPoint side length⟩ := by
  rcases List.mem_map.1 h with ⟨p, hp, rfl⟩
  exact ⟨p.1, List.fst_mem_of_mem_zipIdx hp, rfl⟩

theorem sum_growth_placements :
    ((placements side length piece after k selections).map growth).sum =
      ahead piece (k + selections.length) - ahead piece k := by
  induction selections generalizing k with
  | nil => simp [placements]
  | cons s selections ih =>
      have hnext := ahead_succ piece k
      rw [placements_cons, List.map_cons, List.sum_cons, growth_placement, ih, List.length_cons,
        Nat.add_right_comm k 1, ← Nat.add_assoc]
      omega

/-- Pieces at selections in order are put in in order. -/
theorem chained_placements (side : Side) (piece : Nat → Bytes)
    (after : Selection → Nat → Selection) (k : Nat)
    (hseparate : selections.Pairwise fun s t => s.last < t.first)
    (hlast : ∀ s ∈ selections, s.last ≤ length) (hlength : length < lastOffset) :
    Chained 0 length (placements side length piece after k selections) := by
  have hpairs : (selections.zipIdx k).Pairwise fun p q => p.1.last < q.1.first := by
    rw [← List.pairwise_map (R := fun s t : Selection => s.last < t.first) (f := Prod.fst),
      List.zipIdx_map_fst]
    exact hseparate
  apply InOrder.chained
  constructor
  · rw [placements, List.pairwise_map]
    apply hpairs.imp_of_mem
    intro p q _ hq hpq
    exact insertionPoint_mono hpq (hlast q.1 (List.fst_mem_of_mem_zipIdx hq)) hlength side
  · intro e he
    rcases mem_placements he with ⟨s, -, hrange⟩
    rw [hrange]
    exact ⟨Nat.le_refl _, s.insertionPoint_le side length⟩

/-- The selections come out in order if each of them stays between its first offset and where its
piece pushes its last one. -/
theorem spaced_placements {total : Nat} (side : Side) (low k : Nat)
    (hseparate : selections.Pairwise fun s t => s.last < t.first)
    (hlast : ∀ s ∈ selections, s.last ≤ length)
    (hafter : ∀ s ∈ selections, ∀ j,
      s.first ≤ (after s j).first ∧ (after s j).last ≤ s.last + (piece j).length)
    (hlow : ∀ s ∈ selections, low ≤ s.first + ahead piece k)
    (htotal : length + ahead piece (k + selections.length) ≤ total) :
    Spaced total low (ahead piece k) (placements side length piece after k selections) := by
  induction selections generalizing low k with
  | nil => trivial
  | cons s selections ih =>
      rcases List.pairwise_cons.1 hseparate with ⟨hbehind, hseparate'⟩
      rcases hafter s List.mem_cons_self k with ⟨hfirst, hend⟩
      have hlast' := hlast s List.mem_cons_self
      have hlow' := hlow s List.mem_cons_self
      have hnext := ahead_succ piece k
      rw [List.length_cons, ← Nat.add_assoc, Nat.add_right_comm] at htotal
      have hmono := ahead_mono piece (Nat.le_add_right (k + 1) selections.length)
      have hrest := ih ((after s k).last + ahead piece k + 1) (k + 1) hseparate'
        (fun t ht => hlast t (List.mem_cons_of_mem _ ht))
        (fun t ht => hafter t (List.mem_cons_of_mem _ ht))
        (fun t ht => by have hlt := hbehind t ht; omega) htotal
      rw [placements_cons]
      refine ⟨?_, ?_, ?_⟩
      · change (low : Int) ≤ (after s k).first + ahead piece k
        omega
      · change ((after s k).last : Int) + ahead piece k ≤ total
        omega
      · rw [hnext] at hrest
        rw [growth_placement]
        exact hrest

/-- The bytes come out with all pieces put in. -/
theorem patch_placements (side : Side) (piece : Nat → Bytes)
    (after : Selection → Nat → Selection)
    (hseparate : selections.Pairwise fun s t => s.last < t.first)
    (hlast : ∀ s ∈ selections, s.last ≤ bytes.length) (hlength : bytes.length < lastOffset) :
    patch 0 bytes (placements side bytes.length piece after 0 selections) =
      putIn (selections.zipIdx.map fun p => (p.1.place side bytes.length, piece p.2)) 0 bytes := by
  have hchained := chained_placements side piece after 0 hseparate hlast hlength
  rw [patch_eq_putIn hchained (Nat.zero_add _), placements, List.map_map]
  · congr 1
    apply List.map_congr_left
    intro p hp
    exact congrArg (·, piece p.2) (insertionPoint_eq_place
      (hlast p.1 (List.fst_mem_of_mem_zipIdx hp)) hlength side)
  · intro e he
    rcases mem_placements he with ⟨s, -, hrange⟩
    rw [hrange]

/-- Every selection is moved by the pieces of those in front of it. -/
theorem settle_placements (side : Side) (length : Nat) (piece : Nat → Bytes)
    (after : Selection → Nat → Selection) (k : Nat) (selections : List Selection) :
    settle (ahead piece k) (placements side length piece after k selections) =
      (selections.zipIdx k).map fun p => (after p.1 p.2).shifted (ahead piece p.2) := by
  induction selections generalizing k with
  | nil => rfl
  | cons s selections ih =>
      rw [placements_cons, settle, growth_placement, ← Int.natCast_add, ← ahead_succ, ih,
        List.zipIdx_cons, List.map_cons]
      rfl

/-! ## Finding the pieces -/

/-- A selection of a set lies between those in front of it and those behind it. -/
theorem exists_parts (hseparate : selections.Pairwise fun s t => s.last < t.first)
    (h : (s, i) ∈ selections.zipIdx) :
    ∃ front back, selections = front ++ s :: back ∧ front.length = i ∧
      (∀ t ∈ front, t.last < s.first) ∧ ∀ t ∈ back, s.last < t.first := by
  have hget : selections[i]? = some s := List.mem_zipIdx_iff_getElem?.1 h
  rcases List.getElem?_eq_some_iff.1 hget with ⟨hlt, hs⟩
  have hsplit : selections = selections.take i ++ s :: selections.drop (i + 1) := by
    rw [← hs, ← List.drop_eq_getElem_cons hlt, List.take_append_drop]
  have hfront : (selections.take i).length = i := by
    rw [List.length_take]
    omega
  rw [hsplit, List.pairwise_append, List.pairwise_cons] at hseparate
  rcases hseparate with ⟨-, ⟨hback, -⟩, hbetween⟩
  exact ⟨_, _, hsplit, hfront, fun t ht => hbetween t ht s List.mem_cons_self, hback⟩

/-- The piece of a selection is found where the pieces in front have moved its insertion point. -/
theorem read_piece (side : Side) (piece : Nat → Bytes) (after : Selection → Nat → Selection)
    (hseparate : selections.Pairwise fun s t => s.last < t.first)
    (hlast : ∀ s ∈ selections, s.last ≤ bytes.length) (hlength : bytes.length < lastOffset)
    (hs : (s, i) ∈ selections.zipIdx) :
    ((patch 0 bytes (placements side bytes.length piece after 0 selections)).drop
      (s.insertionPoint side bytes.length + ahead piece i)).take (piece i).length = piece i := by
  have hchained := chained_placements side piece after 0 hseparate hlast hlength
  rcases exists_parts hseparate hs with ⟨front, back, rfl, rfl, -, -⟩
  rw [placements_append, placements_cons, Nat.zero_add] at hchained ⊢
  apply read_replacement hchained hlength.le
  rw [sum_growth_placements, Nat.zero_add]
  simp [ahead, placement]

/-- The bytes below a selection are found where the pieces that are put in in front of them have
moved them, if none is put in among them. -/
theorem read_between (hlast : s.last ≤ bytes.length) (hlength : bytes.length < lastOffset)
    (hchained : Chained 0 bytes.length
      (placements side bytes.length piece after 0 (front ++ back)))
    (hfront : ∀ t ∈ front, t.insertionPoint side bytes.length ≤ s.first)
    (hback : ∀ t ∈ back,
      min (s.last + 1) bytes.length ≤ t.insertionPoint side bytes.length) :
    ((patch 0 bytes (placements side bytes.length piece after 0 (front ++ back))).drop
        (s.first + ahead piece front.length)).take (s.held bytes).length =
      s.held bytes := by
  have hfirst := s.first_le_last
  rw [placements_append] at hchained ⊢
  rw [length_held hlast hlength, held_eq hlast hlength]
  refine read_kept hchained (by omega) (by omega) hlength.le ?_ ?_ ?_
  · intro e he
    rcases mem_placements he with ⟨t, ht, hrange⟩
    rw [hrange]
    exact hfront t ht
  · intro e he
    rcases mem_placements he with ⟨t, ht, hrange⟩
    rw [hrange]
    exact hback t ht
  · rw [sum_growth_placements, Nat.zero_add]
    simp [ahead]

/-- The bytes that a selection covered are found where the pieces in front of them have moved
them. -/
theorem read_covered (side : Side) (piece : Nat → Bytes) (after : Selection → Nat → Selection)
    (hseparate : selections.Pairwise fun s t => s.last < t.first)
    (hlast : ∀ s ∈ selections, s.last ≤ bytes.length) (hlength : bytes.length < lastOffset)
    (hs : (s, i) ∈ selections.zipIdx) :
    ((patch 0 bytes (placements side bytes.length piece after 0 selections)).drop
        (s.first + ahead piece (side.passed i))).take (s.held bytes).length =
      s.held bytes := by
  have hchained := chained_placements side piece after 0 hseparate hlast hlength
  rcases exists_parts hseparate hs with ⟨front, back, rfl, rfl, hfront, hback⟩
  have hlast' := hlast s (by simp)
  have hbefore : ∀ t ∈ front, t.insertionPoint side bytes.length ≤ s.first := fun t ht =>
    insertionPoint_le_first (hfront t ht) hlast' hlength side
  have hbehind : ∀ t ∈ back, min (s.last + 1) bytes.length ≤ t.insertionPoint side bytes.length :=
    fun t ht => le_insertionPoint (hback t ht) (hlast t (by simp [ht])) hlength side
  cases side with
  | before =>
      -- its own piece comes in front of the bytes
      rw [← List.singleton_append, ← List.append_assoc] at hchained ⊢
      have hread := read_between hlast' hlength hchained
        (fun t ht => by
          rcases List.mem_append.1 ht with ht | ht
          · exact hbefore t ht
          · rw [List.mem_singleton.1 ht, insertionPoint_before hlast'])
        hbehind
      rwa [List.length_append, List.length_singleton] at hread
  | after =>
      -- its own piece comes behind them
      apply read_between hlast' hlength hchained hbefore
      intro t ht
      rcases List.mem_cons.1 ht with rfl | ht
      · rw [insertionPoint_after hlast' hlength]
      · exact hbehind t ht

end LocalEdit

namespace Rope

variable {rope : Rope} {set : SelectionSet}

/-- A piece at every selection leads to the bytes of the pass from left to right, and moves every
selection by the pieces of those in front of it. -/
theorem Sound.exists_applyEdits_placements (h : rope.Sound) (hset : set.Valid rope.length)
    (side : Side) (piece : Nat → Bytes) (after : Selection → Nat → Selection)
    (hafter : ∀ s ∈ set.selections, ∀ j,
      s.first ≤ (after s j).first ∧ (after s j).last ≤ s.last + (piece j).length)
    (hroom : rope.length + ahead piece set.size < lastOffset) :
    ∃ e, (rope.applyEdits set fun s i =>
        s.placement side rope.length (piece i) (after s i)) = .ok e ∧
      e.buffer.Sound ∧
      e.buffer.toBytes = LocalEdit.patch 0 rope.toBytes
        (LocalEdit.placements side rope.length piece after 0 set.selections) ∧
      e.buffer.length = rope.length + ahead piece set.size ∧
      e.selections =
        ⟨set.selections.zipIdx.map fun p => (after p.1 p.2).shifted (ahead piece p.2),
          set.main⟩ ∧
      e.selections.Valid e.buffer.length := by
  have hlength : rope.length < lastOffset := by omega
  have hchained := LocalEdit.chained_placements side piece after 0 hset.separate hset.last_le
    hlength
  have htotal : (LocalEdit.patch 0 rope.toBytes
      (LocalEdit.placements side rope.length piece after 0 set.selections)).length =
        rope.length + ahead piece set.size := by
    have hgrown := LocalEdit.length_patch hchained hlength.le
      (show 0 + rope.toBytes.length = rope.length by rw [h.length_eq, Nat.zero_add])
    rw [LocalEdit.sum_growth_placements, ← h.length_eq, Nat.zero_add] at hgrown
    have hnone : ahead piece 0 = 0 := rfl
    rw [SelectionSet.size]
    omega
  have hspaced : LocalEdit.Spaced (rope.length + ahead piece set.size) 0 0
      (LocalEdit.placements side rope.length piece after 0 set.selections) :=
    LocalEdit.spaced_placements side 0 0 hset.separate hset.last_le hafter
      (fun _ _ => Nat.zero_le _) (by rw [Nat.zero_add]; exact Nat.le_refl _)
  rw [← htotal] at hspaced
  rcases h.exists_applyEdits_eq_patch hset.main_lt
      (fun s i => s.placement side rope.length (piece i) (after s i))
      (show _ = LocalEdit.placements side rope.length piece after 0 set.selections from rfl)
      hchained hspaced (by rw [htotal]; exact hroom.le) with
    ⟨e, he, hsound, hbytes, hselections, hvalid⟩
  refine ⟨e, he, hsound, hbytes, ?_, ?_, hvalid⟩
  · rw [hsound.length_eq, hbytes, htotal]
  · rw [hselections]
    congr 1
    exact LocalEdit.settle_placements side rope.length piece after 0 set.selections

end Rope

end HexEditor
