import HexEditor.Proofs.Edit.Placement

/-!
# Insertions one after the other

Bytes that are inserted in front of a selection push it to the right, and those inserted
behind it are taken up by the selection.  Either way the next bytes are inserted right behind
them, so inserting two byte strings one after the other is the same as inserting both at once.
This holds also of selections at the end of the file, behind which nothing can be inserted but
at the end.

Main results:

- Definition `Selection.insertion`: the edit at one selection.
- Theorem `Rope.Sound.exists_insert_eq_patch`: what inserting leaves.
- Theorem `Rope.Sound.insert_append`: two insertions one after the other.
-/

namespace HexEditor

/-! ## One selection -/

namespace Selection

variable {s : Selection} {side : Side} {length : Nat}

/-- The selection that is left when bytes are inserted at it, in a file of the given
length. -/
def inserted (s : Selection) (side : Side) (length n : Nat) : Selection :=
  if n = 0 then s
  else
    match side with
    | .before => ⟨wrap (s.anchor + n), wrap (s.cursor + n)⟩
    | .after =>
      .oriented s.isBackward (min s.first (s.insertionPoint .after length))
        (s.insertionPoint .after length + n - 1)

/-- The insertion of bytes at a selection, in a file of the given length. -/
def insertion (side : Side) (length : Nat) (bytes : Bytes) (s : Selection) : LocalEdit where
  range := ⟨s.insertionPoint side length, s.insertionPoint side length⟩
  replacement := bytes
  after := s.inserted side length bytes.length

theorem growth_insertion (s : Selection) (side : Side) (length : Nat) (bytes : Bytes) :
    (s.insertion side length bytes).growth = bytes.length :=
  LocalEdit.growth_point _ _ _

theorem wrap_eq {n : Nat} (h : n ≤ lastOffset) : wrap n = n :=
  Nat.mod_eq_of_lt (Nat.lt_of_le_of_lt h (by decide))

theorem shift_natCast {k offset : Nat} (h : offset + k ≤ lastOffset) :
    shift k offset = offset + k := by
  rw [shift]
  omega

theorem shifted_oriented (k : Int) (backward : Bool) (low high : Nat) :
    (oriented backward low high).shifted k =
      oriented backward (shift k low) (shift k high) := by
  cases backward
  · rfl
  · rfl

theorem first_le_insertionPoint (hlast : s.last ≤ length) (hlength : length < lastOffset)
    (side : Side) : s.first ≤ s.insertionPoint side length := by
  have hfirst := s.first_le_last
  cases side
  · rw [insertionPoint_before hlast]
  · rw [insertionPoint_after hlast hlength]
    omega

theorem inserted_before {n : Nat} (hlast : s.last ≤ length) (hroom : length + n ≤ lastOffset) :
    s.inserted .before length n = ⟨s.anchor + n, s.cursor + n⟩ := by
  rcases last_le_iff.1 hlast with ⟨hanchor, hcursor⟩
  rw [inserted]
  split_ifs with hn
  · rw [hn]
    rfl
  · rw [wrap_eq (by omega), wrap_eq (by omega)]

theorem inserted_after {n : Nat} (hlast : s.last ≤ length) (hlength : length < lastOffset)
    (hn : 0 < n) :
    s.inserted .after length n =
      oriented s.isBackward s.first (s.insertionPoint .after length + n - 1) := by
  rw [inserted, if_neg (by omega),
    Nat.min_eq_left (first_le_insertionPoint hlast hlength .after)]

/-- An insertion moves the selection no further than the bytes reach. -/
theorem bounds_inserted {n : Nat} (hlast : s.last ≤ length) (hlength : length < lastOffset)
    (hroom : length + n ≤ lastOffset) (side : Side) :
    s.first ≤ (s.inserted side length n).first ∧ (s.inserted side length n).last ≤ s.last + n := by
  have hfirst := s.first_le_last
  rcases Nat.eq_zero_or_pos n with rfl | hn
  · exact ⟨Nat.le_refl _, Nat.le_refl _⟩
  · cases side with
    | before =>
        rw [inserted_before hlast hroom]
        simp only [first, last]
        omega
    | after =>
        have hpoint := first_le_insertionPoint hlast hlength .after
        have hbehind := insertionPoint_after hlast hlength
        rw [inserted_after hlast hlength hn, first_oriented _ (by omega), last_oriented]
        omega

/-! ## One selection, twice -/

section Twice

variable {k m n : Nat}

/-- The selections in front of an insertion move both ends of what it leaves alike. -/
theorem ends_shifted_inserted (hlast : s.last ≤ length) (hk : k + n ≤ m)
    (hroom : length + m < lastOffset) (side : Side) :
    ((s.inserted side length n).shifted k).first = (s.inserted side length n).first + k ∧
      ((s.inserted side length n).shifted k).last = (s.inserted side length n).last + k := by
  have hbounds := bounds_inserted (n := n) hlast (by omega) (by omega) side
  have hfirst := first_shifted (s := s.inserted side length n) (k := k) (by omega) (by omega)
  have hlast' := last_shifted (s := s.inserted side length n) (k := k) (by omega) (by omega)
  omega

/-- Bytes that are inserted next come right behind those inserted before, wherever the
selections in front have moved them. -/
theorem insertionPoint_inserted (hlast : s.last ≤ length) (hn : 0 < n) (hk : k + n ≤ m)
    (hroom : length + m < lastOffset) (side : Side) :
    ((s.inserted side length n).shifted k).insertionPoint side (length + m) =
      s.insertionPoint side length + k + n := by
  have hfirst := s.first_le_last
  have hbounds := bounds_inserted (n := n) hlast (by omega) (by omega) side
  rcases ends_shifted_inserted hlast hk (by omega) side with ⟨hfirst', hlast'⟩
  cases side with
  | before =>
      rw [inserted_before hlast (by omega)] at hfirst' hlast' hbounds ⊢
      rw [insertionPoint_before (by omega), insertionPoint_before hlast]
      simp only [first] at hfirst' ⊢
      omega
  | after =>
      have hpoint := first_le_insertionPoint hlast (by omega) .after
      have hend := s.insertionPoint_le .after length
      have hbehind := insertionPoint_after hlast (by omega)
      rw [insertionPoint_after (by omega) (by omega)]
      rw [inserted_after hlast (by omega) hn, last_oriented] at hlast'
      rw [inserted_after hlast (by omega) hn]
      omega

/-- The selection takes up, or is pushed by, all bytes alike. -/
theorem inserted_inserted {l : Nat} (hlast : s.last ≤ length) (hn : 0 < n) (hk : k + n ≤ m)
    (hroom : length + m + l < lastOffset) (side : Side) :
    ((s.inserted side length n).shifted k).inserted side (length + m) l =
      (s.inserted side length (n + l)).shifted k := by
  have hfirst := s.first_le_last
  have hbounds := bounds_inserted (n := n) hlast (by omega) (by omega) side
  rcases ends_shifted_inserted hlast hk (by omega) side with ⟨hfirst', hlast'⟩
  cases side with
  | before =>
      rcases last_le_iff.1 hlast with ⟨hanchor, hcursor⟩
      rw [inserted_before (by omega) (by omega), inserted_before hlast (by omega),
        inserted_before hlast (by omega)]
      simp only [shifted]
      rw [shift_natCast (by omega), shift_natCast (by omega), shift_natCast (by omega),
        shift_natCast (by omega), mk.injEq]
      omega
  | after =>
      rcases Nat.eq_zero_or_pos l with rfl | hl
      · rfl
      · have hpoint := first_le_insertionPoint hlast (by omega) .after
        have hend := s.insertionPoint_le .after length
        have hbehind := insertionPoint_after hlast (by omega)
        have hnext := insertionPoint_inserted hlast hn hk (by omega) .after
        have hdirection : ((s.inserted .after length n).shifted k).isBackward = s.isBackward := by
          rw [inserted_after hlast (by omega) hn, shifted_oriented,
            shift_natCast (by omega), shift_natCast (by omega)]
          refine isBackward_oriented _ (by omega) ?_
          intro hbackward
          have hlong := first_lt_last_of_isBackward hbackward
          omega
        have hlow : ((s.inserted .after length n).shifted k).first = s.first + k := by
          rw [inserted_after hlast (by omega) hn, first_oriented _ (by omega)] at hfirst'
          rw [inserted_after hlast (by omega) hn]
          omega
        rw [inserted_after (by omega) (by omega) hl, hdirection, hlow, hnext,
          inserted_after hlast (by omega) (by omega), shifted_oriented,
          shift_natCast (by omega), shift_natCast (by omega)]
        congr 1
        omega

end Twice

end Selection

/-! ## All selections -/

namespace LocalEdit

open Selection

variable {selections : List Selection} {side : Side} {length : Nat} {xs ys : Bytes}

/-- Insertions put the same piece in at every selection. -/
theorem map_insertion_eq (side : Side) (length : Nat) (bytes : Bytes)
    (selections : List Selection) :
    selections.map (insertion side length bytes) =
      placements side length (fun _ => bytes) (fun s _ => s.inserted side length bytes.length) 0
        selections :=
  (map_zipIdx_eq_map (insertion side length bytes) selections).symm

/-- Insertions at selections in order are in order. -/
theorem chained_insertions
    (hseparate : selections.Pairwise fun s t => s.last < t.first)
    (hlast : ∀ s ∈ selections, s.last ≤ length) (hlength : length < lastOffset)
    (side : Side) (bytes : Bytes) :
    Chained 0 length (selections.map (insertion side length bytes)) := by
  rw [map_insertion_eq]
  exact chained_placements side _ _ 0 hseparate hlast hlength

/-- Moving twice is moving once. -/
theorem shifted_shifted (s : Selection) (k l : Nat) :
    (s.shifted k).shifted l = s.shifted (k + l : Nat) := by
  have hshift : ∀ offset, shift l (shift k offset) = shift (k + l : Nat) offset := by
    intro offset
    simp only [shift]
    omega
  simp only [shifted, hshift]

/-- Inserting nothing leaves the selections. -/
theorem settle_insertions_nil (hlast : ∀ s ∈ selections, s.last ≤ length)
    (hlength : length ≤ lastOffset) :
    settle 0 (selections.map (insertion side length [])) = selections := by
  induction selections with
  | nil => rfl
  | cons s selections ih =>
      have hkept : s.shifted 0 = s := shifted_zero ((hlast s List.mem_cons_self).trans hlength)
      simp only [List.map_cons, settle, growth_insertion, List.length_nil, Nat.cast_zero,
        Int.add_zero, ih fun t ht => hlast t (List.mem_cons_of_mem _ ht)]
      simp only [insertion, inserted, List.length_nil, if_true, hkept]

/-- Inserting nothing leaves the bytes. -/
theorem patch_insertions_nil (selections : List Selection) (side : Side) (length offset : Nat)
    (bytes : Bytes) :
    patch offset bytes (selections.map (insertion side length [])) = bytes := by
  induction selections generalizing offset bytes with
  | nil => rfl
  | cons s selections ih =>
      rw [List.map_cons, patch, ih]
      simp only [insertion, List.append_nil, List.take_append_drop]

/-- The selections that two insertions leave one after the other. -/
theorem settle_insertions_append {k l m : Nat} (hxs : xs ≠ [])
    (hlast : ∀ s ∈ selections, s.last ≤ length) (hk : k + selections.length * xs.length ≤ m)
    (hroom : length + m + ys.length < lastOffset) :
    settle l ((settle k (selections.map (insertion side length xs))).map
        (insertion side (length + m) ys)) =
      settle (k + l : Nat) (selections.map (insertion side length (xs ++ ys))) := by
  induction selections generalizing k l with
  | nil => rfl
  | cons s selections ih =>
      rw [List.length_cons, Nat.succ_mul] at hk
      have hpos := List.length_pos_iff.2 hxs
      have hhead := inserted_inserted (hlast s List.mem_cons_self) hpos
        (show k + xs.length ≤ m by omega) (l := ys.length) hroom side
      have hrest := ih (fun t ht => hlast t (List.mem_cons_of_mem _ ht))
        (show k + xs.length + selections.length * xs.length ≤ m by omega)
        (l := l + ys.length)
      simp only [List.map_cons, settle, growth_insertion, ← Int.natCast_add]
      refine congrArg₂ List.cons ?_ ?_
      · simp only [insertion, hhead, shifted_shifted, List.length_append]
      · rw [hrest, List.length_append]
        congr 2
        omega

/-- The bytes that two insertions leave one after the other.  The induction carries how far
the bytes behind the offset have been moved so far. -/
theorem patch_insertions_append {offset k m : Nat} {bytes : Bytes} (hxs : xs ≠ [])
    (hchained : Chained offset length (selections.map (insertion side length xs)))
    (hbytes : offset + bytes.length = length)
    (hlast : ∀ s ∈ selections, s.last ≤ length) (hk : k + selections.length * xs.length ≤ m)
    (hroom : length + m < lastOffset) :
    patch (offset + k) (patch offset bytes (selections.map (insertion side length xs)))
        ((settle k (selections.map (insertion side length xs))).map
          (insertion side (length + m) ys)) =
      patch offset bytes (selections.map (insertion side length (xs ++ ys))) := by
  induction selections generalizing offset k bytes with
  | nil => rfl
  | cons s selections ih =>
      rw [List.length_cons, Nat.succ_mul] at hk
      rcases hchained with ⟨hfront, -, hbehind⟩
      have hpos := List.length_pos_iff.2 hxs
      have hpoint := insertionPoint_inserted (hlast s List.mem_cons_self) hpos
        (show k + xs.length ≤ m by omega) hroom side
      have hend := s.insertionPoint_le side length
      change offset ≤ s.insertionPoint side length at hfront
      change Chained (s.insertionPoint side length) length _ at hbehind
      have hbytes' : s.insertionPoint side length +
          (bytes.drop (s.insertionPoint side length - offset)).length = length := by
        rw [List.length_drop]
        omega
      have hrest := ih hbehind hbytes' (fun t ht => hlast t (List.mem_cons_of_mem _ ht))
        (show k + xs.length + selections.length * xs.length ≤ m by omega)
      -- what the first insertions have put in front of the bytes that are inserted now
      have hfirst : (bytes.take (s.insertionPoint side length - offset) ++ xs).length =
          s.insertionPoint side length + k + xs.length - (offset + k) := by
        rw [List.length_append, List.length_take]
        omega
      simp only [List.map_cons, settle, growth_insertion, ← Int.natCast_add]
      rw [patch, patch, patch]
      simp only [insertion, hpoint]
      rw [← hfirst, List.take_left, List.drop_left, Nat.add_assoc _ k, hrest]
      simp only [List.append_assoc]

end LocalEdit

namespace Rope

open Selection

variable {rope : Rope} {set : SelectionSet} {side : Side}

/-! ## Inserting -/

theorem insert_eq (rope : Rope) (set : SelectionSet) (bytes : Bytes) (side : Side) :
    rope.insert set bytes side =
      rope.applyEdits set fun s _ => insertion side rope.length bytes s := by
  cases side
  · rfl
  · rfl

/-- Inserting bytes leads to a version that is longer by them at every selection, and to
selections that are pushed to the right or take them up. -/
theorem Sound.exists_insert_eq_patch (h : rope.Sound) (hset : set.Valid rope.length)
    (bytes : Bytes) (hroom : rope.length + set.size * bytes.length < lastOffset) (side : Side) :
    ∃ e, rope.insert set bytes side = .ok e ∧ e.buffer.Sound ∧
      e.buffer.toBytes =
        LocalEdit.patch 0 rope.toBytes (set.selections.map (insertion side rope.length bytes)) ∧
      e.selections =
        ⟨LocalEdit.settle 0 (set.selections.map (insertion side rope.length bytes)), set.main⟩ ∧
      e.buffer.length = rope.length + set.size * bytes.length ∧
      e.selections.Valid e.buffer.length := by
  have hlength : rope.length < lastOffset := by omega
  have hone := Nat.le_mul_of_pos_left bytes.length hset.size_pos
  rcases h.exists_applyEdits_placements hset side (fun _ => bytes)
      (fun s _ => s.inserted side rope.length bytes.length)
      (fun s hs _ => bounds_inserted (hset.last_le s hs) hlength (by omega) side)
      (by rwa [ahead_const]) with ⟨e, he, hsound, hbytes, htotal, hselections, hvalid⟩
  have hsettle := LocalEdit.settle_placements side rope.length (fun _ => bytes)
    (fun s _ => s.inserted side rope.length bytes.length) 0 set.selections
  rw [ahead_const] at htotal
  rw [LocalEdit.map_insertion_eq]
  exact ⟨e, (insert_eq ..).trans he, hsound, hbytes, by rw [hselections, ← hsettle]; rfl, htotal,
    hvalid⟩

/-- Inserting nothing leaves the bytes and the selections. -/
theorem Sound.insert_nil (h : rope.Sound) (hset : set.Valid rope.length)
    (hlength : rope.length < lastOffset) (side : Side) :
    ∃ e, rope.insert set [] side = .ok e ∧ e.buffer.toBytes = rope.toBytes ∧
      e.selections = set := by
  rcases h.exists_insert_eq_patch hset [] hlength side with
    ⟨e, he, -, hbytes, hselections, -, -⟩
  rw [LocalEdit.patch_insertions_nil] at hbytes
  rw [LocalEdit.settle_insertions_nil hset.last_le hlength.le] at hselections
  exact ⟨e, he, hbytes, hselections⟩

/-- Two insertions one after the other lead to the bytes and the selections that inserting
both byte strings at once leads to.  Between them the version may be marked. -/
theorem Sound.insert_append (h : rope.Sound) (hset : set.Valid rope.length) {xs ys : Bytes}
    (hroom : rope.length + set.size * (xs ++ ys).length < lastOffset) {e : Edited}
    (he : rope.insert set xs side = .ok e) {next : Rope} (hnext : next.Sound)
    (hbytes : next.toBytes = e.buffer.toBytes) :
    ∃ f g, next.insert e.selections ys side = .ok f ∧
      rope.insert set (xs ++ ys) side = .ok g ∧
      f.buffer.toBytes = g.buffer.toBytes ∧ f.selections = g.selections := by
  have hroom' := hroom
  rw [List.length_append, Nat.mul_add] at hroom'
  rcases h.exists_insert_eq_patch hset xs (by omega) side with
    ⟨d, hd, hsound, hbytes', hselections, hlength, hvalid⟩
  rw [he] at hd
  cases hd
  have hlength' : next.length = rope.length + set.size * xs.length := by
    rw [hnext.length_eq, hbytes, ← hsound.length_eq, hlength]
  have hsize : e.selections.size = set.size := by
    rw [hselections, SelectionSet.size, LocalEdit.length_settle, List.length_map,
      SelectionSet.size]
  rw [hlength, ← hlength'] at hvalid
  rcases hnext.exists_insert_eq_patch hvalid ys (by rw [hsize, hlength']; omega) side with
    ⟨f, hf, -, hfbytes, hfselections, -, -⟩
  rcases h.exists_insert_eq_patch hset (xs ++ ys) hroom side with
    ⟨g, hg, -, hgbytes, hgselections, -, -⟩
  rw [hlength', hbytes, hbytes', hselections] at hfbytes
  rw [hlength', hselections] at hfselections
  refine ⟨f, g, hf, hg, ?_, ?_⟩
  · rw [hfbytes, hgbytes]
    rcases eq_or_ne xs [] with rfl | hxs
    · simp only [LocalEdit.patch_insertions_nil, List.length_nil, Nat.mul_zero, Nat.add_zero,
        List.nil_append, LocalEdit.settle_insertions_nil hset.last_le (by omega)]
    · exact LocalEdit.patch_insertions_append (k := 0) hxs
        (LocalEdit.chained_insertions hset.separate hset.last_le (by omega) side xs)
        (by rw [h.length_eq, Nat.zero_add]) hset.last_le (by rw [Nat.zero_add]; rfl) (by omega)
  · rw [hfselections, hgselections]
    congr 1
    rcases eq_or_ne xs [] with rfl | hxs
    · simp only [List.length_nil, Nat.mul_zero, Nat.add_zero,
        List.nil_append, LocalEdit.settle_insertions_nil hset.last_le (by omega)]
    · have hpos := Nat.le_mul_of_pos_left ys.length hset.size_pos
      exact LocalEdit.settle_insertions_append (k := 0) (l := 0) hxs hset.last_le
        (by rw [Nat.zero_add]; rfl) (by omega)

end Rope

end HexEditor
