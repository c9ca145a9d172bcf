import HexEditor.Proofs.Edit.Insertion

/-!
# Taking back a typed byte

Backspace removes the byte in front of every insertion point.  Right after a byte has been typed at
every selection, these are the typed bytes: the insertion points have been moved behind them, so
they are different even if two of them were the same at the end of the file before.  A selection
that was pushed to the right comes back, and one that has grown loses what it took up.

There is one selection that loses more.  If it covers bytes and the offset behind the last byte as
well, a byte that is typed behind it goes below that offset, so the selection does not grow; but
backspace still makes it shorter.

Main results:

- Definition `Selection.backspacing` and theorem `Rope.eraseBefore_eq`: backspace at one selection.
- Definition `Selection.takenBack` and theorem `Selection.backspacing_inserted`: what it does to a
  selection at which a byte has been typed.
- Definition `LocalEdit.withdrawals` with theorems `LocalEdit.patch_withdrawals` and
  `LocalEdit.settle_withdrawals`: what it does to all bytes and selections.
- Theorem `Rope.Sound.backspace_takes_back`: backspace takes back a typed byte.
-/

namespace HexEditor

/-! ## One selection -/

namespace Selection

variable {s : Selection} {side : Side} {length : Nat}

/-- The edit of backspace at a selection, in a file of the given length. -/
def backspacing (side : Side) (length : Nat) (s : Selection) : LocalEdit :=
  let point := s.insertionPoint side length
  if point = 0 then ⟨⟨0, 0⟩, [], s⟩
  else
    ⟨⟨point - 1, point⟩, [],
      if side = .before ∨ point - 1 < s.first then s.shifted (-1)
      else if s.first < s.last then .oriented s.isBackward s.first (min s.last point - 1)
      else .point s.first⟩

/-- What becomes of a selection when a byte is typed at it and taken back.  The offset behind the
last byte is lost if it is not the only one. -/
def takenBack (side : Side) (length : Nat) (s : Selection) : Selection :=
  if side = .after ∧ s.first < s.last ∧ s.last = length then
    oriented s.isBackward s.first (length - 1)
  else s

/-- A selection is given by its ends and its direction. -/
theorem oriented_self (s : Selection) : oriented s.isBackward s.first s.last = s := by
  obtain ⟨anchor, cursor⟩ := s
  by_cases hbackward : cursor < anchor
  · simp [oriented, isBackward, first, last, hbackward, hbackward.le]
  · have hle : anchor ≤ cursor := by omega
    simp [oriented, isBackward, first, last, hbackward, hle]

theorem bounds_takenBack (s : Selection) (side : Side) (length : Nat) :
    (s.takenBack side length).first = s.first ∧ (s.takenBack side length).last ≤ s.last := by
  unfold takenBack
  by_cases hend : side = .after ∧ s.first < s.last ∧ s.last = length
  · have hle : s.first ≤ length - 1 := by omega
    rw [if_pos hend, first_oriented _ hle, last_oriented]
    omega
  · simp [hend]

theorem takenBack_eq_self (h : ¬ (s.first < s.last ∧ s.last = length)) :
    s.takenBack side length = s :=
  if_neg fun hend => h hend.2

/-- If bytes can be inserted behind the first offset of a selection, the offset in front of the
insertion point is the last one that it keeps. -/
theorem takenBack_after (hlast : s.last ≤ length) (hlength : length < lastOffset)
    (hlong : s.first < s.insertionPoint .after length) :
    s.takenBack .after length =
      oriented s.isBackward s.first (s.insertionPoint .after length - 1) := by
  have hfirst := s.first_le_last
  have hbehind := insertionPoint_after hlast hlength
  unfold takenBack
  by_cases hend : s.first < s.last ∧ s.last = length
  · have hpoint : s.insertionPoint .after length - 1 = length - 1 := by omega
    rw [if_pos ⟨rfl, hend⟩, hpoint]
  · have hpoint : s.insertionPoint .after length - 1 = s.last := by omega
    rw [if_neg fun h => hend h.2, hpoint, oriented_self]

/-- Otherwise the selection is the point behind the last byte. -/
theorem takenBack_after_end (hlast : s.last ≤ length) (hlength : length < lastOffset)
    (hshort : ¬ s.first < s.insertionPoint .after length) :
    s.takenBack .after length = point s.first := by
  have hfirst := s.first_le_last
  have hbehind := insertionPoint_after hlast hlength
  have hpoint : s.first = s.last := by omega
  have hself := s.oriented_self
  rw [takenBack_eq_self (by omega), ← hself, ← hpoint]
  cases s.isBackward <;> simp [oriented, point, first]

/-- Moving to the right and back again. -/
theorem shifted_neg_shifted {k : Nat} (hroom : s.last + k ≤ lastOffset) :
    (s.shifted k).shifted (-(k : Int)) = s := by
  obtain ⟨hanchor, hcursor⟩ := last_le_iff.1 (Nat.le_refl s.last)
  have hback : ∀ offset ≤ s.last, shift (-(k : Int)) (shift k offset) = offset := by
    intro offset hle
    simp only [shift]
    omega
  simp only [shifted, hback s.anchor hanchor, hback s.cursor hcursor]

/-- Backspace at a selection that a typed byte has pushed to the right, or that has taken the byte
up.  The selections in front have moved it by `k` before. -/
theorem backspacing_inserted {k m : Nat} (hlast : s.last ≤ length) (hk : k + 1 ≤ m)
    (hroom : length + m < lastOffset) (side : Side) :
    ((s.inserted side length 1).shifted k).backspacing side (length + m) =
      ⟨⟨s.insertionPoint side length + k, s.insertionPoint side length + k + 1⟩, [],
        (s.takenBack side length).shifted k⟩ := by
  have hpoint := insertionPoint_inserted hlast Nat.one_pos hk hroom side
  have hfirst := s.first_le_last
  simp only [backspacing, hpoint, Nat.add_one_ne_zero, Nat.add_one_sub_one, if_false,
    LocalEdit.mk.injEq, true_and]
  cases side with
  | before =>
      obtain ⟨hanchor, hcursor⟩ := last_le_iff.1 hlast
      rw [inserted_before hlast (by omega)]
      simp only [takenBack, reduceCtorEq, false_and, true_or, if_true, if_false, shifted,
        Selection.mk.injEq, shift]
      omega
  | after =>
      have hgrown := inserted_after hlast (by omega) Nat.one_pos
      have hbehind := insertionPoint_after hlast (show length < lastOffset by omega)
      have hend := s.insertionPoint_le .after length
      have hends : (s.inserted .after length 1).shifted k =
          oriented s.isBackward (s.first + k) (s.insertionPoint .after length + k) := by
        rw [hgrown, shifted_oriented, shift_natCast (by omega), shift_natCast (by omega)]
        simp
      have hle : s.first + k ≤ s.insertionPoint .after length + k := by omega
      rw [hends, first_oriented _ hle, last_oriented, Nat.max_eq_right hle]
      by_cases hlong : s.first < s.insertionPoint .after length
      · have hdirection : (oriented s.isBackward (s.first + k)
            (s.insertionPoint .after length + k)).isBackward = s.isBackward :=
          isBackward_oriented _ hle fun _ => by omega
        rw [if_neg (by simp; omega), if_pos (by omega), hdirection,
          takenBack_after hlast (by omega) hlong, shifted_oriented, shift_natCast (by omega),
          shift_natCast (by omega)]
        congr 1
        omega
      · rw [takenBack_after_end hlast (by omega) hlong, if_neg (by simp; omega),
          if_neg (by omega)]
        simp [point, shifted, shift_natCast (show s.first + k ≤ lastOffset by omega)]

end Selection

/-! ## All selections -/

namespace LocalEdit

open Selection

variable {selections : List Selection} {side : Side} {length : Nat}

/-- The edits of backspace at selections at which a byte has been typed, when `k` bytes had been
typed in front of them. -/
def withdrawals (side : Side) (length k : Nat) : List Selection → List LocalEdit
  | [] => []
  | s :: selections =>
    ⟨⟨s.insertionPoint side length + k, s.insertionPoint side length + k + 1⟩, [],
      (s.takenBack side length).shifted k⟩ :: withdrawals side length (k + 1) selections

theorem map_backspacing_eq {k m : Nat} (byte : UInt8) (hlast : ∀ s ∈ selections, s.last ≤ length)
    (hk : k + selections.length ≤ m) (hroom : length + m < lastOffset) :
    (settle k (selections.map (insertion side length [byte]))).map
        (backspacing side (length + m)) = withdrawals side length k selections := by
  induction selections generalizing k with
  | nil => simp [settle, withdrawals]
  | cons s selections ih =>
      rw [List.length_cons] at hk
      have hrest := ih (fun t ht => hlast t (List.mem_cons_of_mem _ ht))
        (show k + 1 + selections.length ≤ m by omega)
      have hhead := backspacing_inserted (hlast s List.mem_cons_self)
        (show k + 1 ≤ m by omega) hroom side
      push_cast at hrest
      simp only [List.map_cons, settle, growth_insertion, List.length_singleton, Nat.cast_one,
        withdrawals, hrest, ← hhead]
      simp only [insertion, List.length_singleton]

theorem growth_withdrawal {point : Nat} (hpoint : point < lastOffset) (after : Selection) :
    (mk ⟨point, point + 1⟩ [] after).growth = -1 := by
  have hgrowth := growth_eq (e := ⟨⟨point, point + 1⟩, [], after⟩) (Nat.le_succ point)
    (Nat.le_refl _) hpoint
  rw [hgrowth]
  simp

/-- The typed bytes are behind each other, so each of them can be removed. -/
theorem chained_withdrawals {offset k m : Nat} {byte : UInt8}
    (hchained : Chained offset length (selections.map (insertion side length [byte])))
    (hk : k + selections.length ≤ m) :
    Chained (offset + k) (length + m) (withdrawals side length k selections) := by
  induction selections generalizing offset k with
  | nil =>
      have hle : offset ≤ length := hchained
      have hk' : k ≤ m := hk
      change offset + k ≤ length + m
      omega
  | cons s selections ih =>
      obtain ⟨hfront, -, hbehind⟩ := hchained
      rw [List.length_cons] at hk
      have hrest := ih (k := k + 1) hbehind (by omega)
      refine ⟨Nat.add_le_add_right hfront k, Nat.le_succ _, ?_⟩
      rwa [← Nat.add_assoc] at hrest

/-- Removing the typed bytes leaves those that were there before.  The induction carries how many
bytes have been typed in front of the offset. -/
theorem patch_withdrawals {offset k : Nat} {bytes : Bytes} {byte : UInt8}
    (hchained : Chained offset length (selections.map (insertion side length [byte])))
    (hbytes : offset + bytes.length = length) :
    patch (offset + k) (patch offset bytes (selections.map (insertion side length [byte])))
      (withdrawals side length k selections) = bytes := by
  induction selections generalizing offset k bytes with
  | nil => simp [patch, withdrawals]
  | cons s selections ih =>
      obtain ⟨hfront, -, hbehind⟩ := hchained
      have hend := s.insertionPoint_le side length
      change offset ≤ s.insertionPoint side length at hfront
      change Chained (s.insertionPoint side length) length _ at hbehind
      have hrest := @ih _ (k + 1) (bytes.drop (s.insertionPoint side length - offset)) hbehind
        (by rw [List.length_drop]; omega)
      have hfirst : (bytes.take (s.insertionPoint side length - offset)).length =
          s.insertionPoint side length + k - (offset + k) := by
        rw [List.length_take]
        omega
      have hnext : (bytes.take (s.insertionPoint side length - offset) ++ [byte]).length =
          s.insertionPoint side length + k + 1 - (offset + k) := by
        rw [List.length_append, hfirst, List.length_singleton]
        omega
      rw [List.map_cons, withdrawals, patch, patch]
      simp only [insertion, List.append_nil]
      rw [← hnext, List.drop_left, List.append_assoc, ← hfirst, List.take_left,
        Nat.add_assoc _ k 1, hrest, List.take_append_drop]

/-- The selections come back to where they were. -/
theorem settle_withdrawals {k : Nat} (hlast : ∀ s ∈ selections, s.last ≤ length)
    (hroom : length + k + selections.length < lastOffset) :
    settle (-(k : Int)) (withdrawals side length k selections) =
      selections.map (takenBack side length) := by
  induction selections generalizing k with
  | nil => simp [settle, withdrawals]
  | cons s selections ih =>
      rw [List.length_cons] at hroom
      have hend := s.insertionPoint_le side length
      have hlast' := hlast s List.mem_cons_self
      have hkept := (s.bounds_takenBack side length).2
      have hrest := ih (k := k + 1) (fun t ht => hlast t (List.mem_cons_of_mem _ ht)) (by omega)
      push_cast at hrest
      rw [withdrawals, settle, growth_withdrawal (by omega), shifted_neg_shifted (by omega),
        List.map_cons, ← Int.neg_add, hrest]

/-- The selections that come back are in order. -/
theorem spaced_withdrawals {k : Nat} (low : Int)
    (hseparate : selections.Pairwise fun s t => s.last < t.first)
    (hlast : ∀ s ∈ selections, s.last ≤ length) (hlow : ∀ s ∈ selections, low ≤ s.first)
    (hroom : length + k + selections.length < lastOffset) (side : Side) :
    Spaced length low (-(k : Int)) (withdrawals side length k selections) := by
  induction selections generalizing k low with
  | nil => trivial
  | cons s selections ih =>
      obtain ⟨hnext, hseparate⟩ := List.pairwise_cons.1 hseparate
      rw [List.length_cons] at hroom
      have hend := s.insertionPoint_le side length
      have hlast' := hlast s List.mem_cons_self
      have hlow' := hlow s List.mem_cons_self
      obtain ⟨hfirst, hkept⟩ := s.bounds_takenBack side length
      have hfirst' := first_shifted (s := s.takenBack side length) (k := k) (by omega) (by omega)
      have hlast'' := last_shifted (s := s.takenBack side length) (k := k) (by omega) (by omega)
      have hrest := ih (k := k + 1) ((s.takenBack side length).last + 1) hseparate
        (fun t ht => hlast t (List.mem_cons_of_mem _ ht))
        (fun t ht => by have := hnext t ht; omega) (by omega)
      push_cast at hrest
      refine ⟨?_, ?_, ?_⟩
      · dsimp only
        omega
      · dsimp only
        omega
      · rw [growth_withdrawal (by omega), ← Int.neg_add]
        dsimp only
        rwa [hlast'', Int.add_neg_cancel_right]

end LocalEdit

namespace Rope

open Selection

variable {rope : Rope} {set : SelectionSet}

theorem eraseBefore_eq (rope : Rope) (set : SelectionSet) (side : Side) :
    rope.eraseBefore set side =
      rope.applyEdits set fun s _ => backspacing side rope.length s := by
  rfl

/-- Typing a byte at every selection of a valid set and taking it back with backspace leads back to
the same bytes.  It leads back to the same selections too, unless one of several offsets ends behind
the last byte. -/
theorem Sound.backspace_takes_back (h : rope.Sound) (hset : set.Valid rope.length)
    (hroom : rope.length + set.size < lastOffset) (side : Side) (byte : UInt8) :
    ∃ typed back, rope.insert set [byte] side = .ok typed ∧
      typed.buffer.eraseBefore typed.selections side = .ok back ∧
      back.buffer.toBytes = rope.toBytes ∧
      back.selections = ⟨set.selections.map (takenBack side rope.length), set.main⟩ ∧
      ((∀ s ∈ set.selections, ¬ (s.first < s.last ∧ s.last = rope.length)) →
        back.selections = set) := by
  obtain ⟨typed, htyped, hsound, hbytes, hselections, hlength, hvalid⟩ :=
    h.exists_insert_eq_patch hset [byte] (by simpa using hroom) side
  rw [List.length_singleton, Nat.mul_one] at hlength
  have hwhole : 0 + rope.toBytes.length = rope.length := by rw [h.length_eq, Nat.zero_add]
  have hchained := LocalEdit.chained_insertions hset.separate hset.last_le (by omega) side [byte]
  have hedits : typed.selections.selections.zipIdx.map
      (fun p => backspacing side typed.buffer.length p.1) =
        LocalEdit.withdrawals side rope.length 0 set.selections := by
    rw [LocalEdit.map_zipIdx_eq_map, hselections, hlength]
    exact LocalEdit.map_backspacing_eq (k := 0) byte hset.last_le (by rw [Nat.zero_add]; rfl) hroom
  have hremoved : LocalEdit.patch 0 typed.buffer.toBytes
      (LocalEdit.withdrawals side rope.length 0 set.selections) = rope.toBytes := by
    rw [hbytes]
    exact LocalEdit.patch_withdrawals (k := 0) hchained hwhole
  have hspaced := LocalEdit.spaced_withdrawals (k := 0) 0 hset.separate hset.last_le
    (fun s _ => by omega) hroom side
  obtain ⟨back, hback, -, hrestored, hsettled, -⟩ := hsound.exists_applyEdits_eq_patch
    hvalid.main_lt (fun s _ => backspacing side typed.buffer.length s) hedits
    (by rw [hlength]; exact LocalEdit.chained_withdrawals (k := 0) hchained (by simp; rfl))
    (by rw [hremoved, ← h.length_eq]; exact hspaced) (by rw [hremoved, ← h.length_eq]; omega)
  have hkept : back.selections =
      ⟨set.selections.map (takenBack side rope.length), set.main⟩ := by
    rw [hsettled, hselections]
    congr 1
    exact LocalEdit.settle_withdrawals (k := 0) hset.last_le hroom
  refine ⟨typed, back, htyped, (eraseBefore_eq ..).trans hback, hrestored.trans hremoved, hkept, ?_⟩
  intro hclear
  have hsame : set.selections.map (takenBack side rope.length) = set.selections := by
    conv_rhs => rw [← List.map_id set.selections]
    exact List.map_congr_left fun s hs => takenBack_eq_self (hclear s hs)
  rw [hkept, hsame]

/-- Behind both selections at the end of the file the byte is typed at the same offset.  It is taken
back at different ones, and the selections are left as they were. -/
theorem backspace_takes_back_crowded :
    ∃ typed back, (ofBytes [1, 2]).insert ⟨[⟨1, 0⟩, .point 2], 1⟩ [74] .after = .ok typed ∧
      typed.buffer.eraseBefore typed.selections .after = .ok back ∧
      back.buffer.toBytes = [1, 2] ∧ back.selections = ⟨[⟨1, 0⟩, .point 2], 1⟩ := by
  have hlength : (ofBytes [1, 2]).length = 2 := by simp
  have hvalid : SelectionSet.Valid ⟨[⟨1, 0⟩, .point 2], 1⟩ (ofBytes [1, 2]).length := by
    rw [hlength]
    exact ⟨by decide, by decide, by decide⟩
  obtain ⟨typed, back, htyped, hback, hbytes, -, hselections⟩ :=
    (sound_ofBytes [1, 2]).backspace_takes_back hvalid (by rw [hlength]; decide) .after 74
  rw [toBytes_ofBytes] at hbytes
  exact ⟨typed, back, htyped, hback, hbytes, hselections (by rw [hlength]; decide)⟩

end Rope

end HexEditor
