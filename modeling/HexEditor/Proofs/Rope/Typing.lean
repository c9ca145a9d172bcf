import HexEditor.Proofs.Rope.Seams

/-!
# Typing does not fragment a version

Bytes that are typed go into the leaf in front of them until it is full, and then into a new one.
On the way the version is cut and joined again at every byte, and other leaves may merge.  What is
counted is therefore not the leaves as they are, but the leaves that a cut at the place of typing
would leave, together with the bytes in the last leaf in front of it.  A typed byte raises this load
by one byte, and merging never raises it.

Main results:

- Definition `Leaves.Merges`: some neighbouring leaves have become one.
- Definition `Leaves.cut` and theorem `Node.Sound.merges_split`: a tree that is cut has the leaves
  of the row that is cut, or merged ones.
- Definition `Leaves.load` and theorem `Leaves.Merges.load_le`: merging does not raise the load.
- Theorem `Rope.Reachable.loadAt_typed`: a typed byte raises the load by one.
- Definition `Rope.typeIn` and theorem `Rope.typing_fills_leaves`: the leaves after a run of typed
  bytes.
-/

namespace HexEditor

namespace Leaves

variable {xs ys : List Nat}

/-! ## Merged leaves -/

/-- Two neighbouring leaves become one. -/
inductive MergesOnce : List Nat → List Nat → Prop where
  /-- The leaves are not empty and fit into one. -/
  | intro (front back : List Nat) {x y : Nat} (hx : 0 < x) (hy : 0 < y)
      (fits : x + y ≤ leafCapacity) :
      MergesOnce (front ++ x :: y :: back) (front ++ (x + y) :: back)

/-- Some neighbouring leaves become one, in any number of steps. -/
def Merges : List Nat → List Nat → Prop :=
  Relation.ReflTransGen MergesOnce

theorem MergesOnce.length_eq (h : MergesOnce xs ys) : xs.length = ys.length + 1 := by
  cases h with
  | intro front back hx hy fits =>
      simp only [List.length_append, List.length_cons]
      omega

/-- Merging leaves no more leaves than before. -/
theorem Merges.length_le (h : Merges xs ys) : ys.length ≤ xs.length := by
  induction h with
  | refl => exact Nat.le_refl _
  | tail _ hstep ih =>
      have hlength := hstep.length_eq
      omega

theorem MergesOnce.append_left (h : MergesOnce xs ys) (front : List Nat) :
    MergesOnce (front ++ xs) (front ++ ys) := by
  cases h with
  | intro front' back hx hy fits =>
      rw [← List.append_assoc, ← List.append_assoc]
      exact .intro _ _ hx hy fits

theorem MergesOnce.append_right (h : MergesOnce xs ys) (back : List Nat) :
    MergesOnce (xs ++ back) (ys ++ back) := by
  cases h with
  | intro front back' hx hy fits =>
      rw [List.append_assoc, List.append_assoc]
      exact .intro _ _ hx hy fits

theorem Merges.append_left (h : Merges xs ys) (front : List Nat) :
    Merges (front ++ xs) (front ++ ys) :=
  Relation.ReflTransGen.lift (front ++ ·) (fun _ _ hstep => hstep.append_left front) _ _ h

theorem Merges.append_right (h : Merges xs ys) (back : List Nat) :
    Merges (xs ++ back) (ys ++ back) :=
  Relation.ReflTransGen.lift (· ++ back) (fun _ _ hstep => hstep.append_right back) _ _ h

/-- Two rows that meet have merged once at most. -/
theorem merges_meet (hxs : Filled xs) (hys : Filled ys) : Merges (xs ++ ys) (meet xs ys) := by
  rcases meet_cases xs ys with heq | ⟨front, x, y, back, rfl, rfl, hfits, heq⟩
  · rw [heq]
    exact .refl
  · have hx := hxs.bounds.1
    have hy := (filled_cons_iff.1 hys).1.1
    rw [heq, List.append_assoc]
    exact .single (.intro _ _ hx hy hfits)

/-! ## Cutting a row -/

/-- Cut a row of leaves at an offset.  A leaf that lies across it is cut in two. -/
def cut : List Nat → Nat → List Nat × List Nat
  | [], _ => ([], [])
  | x :: xs, k =>
    if k = 0 then ([], x :: xs)
    else if k < x then ([k], (x - k) :: xs)
    else (x :: (cut xs (k - x)).1, (cut xs (k - x)).2)

@[simp]
theorem cut_zero (xs : List Nat) : cut xs 0 = ([], xs) := by
  cases xs <;> simp [cut]

theorem cut_cons_of_lt {x k : Nat} (xs : List Nat) (hpos : 0 < k) (hlt : k < x) :
    cut (x :: xs) k = ([k], (x - k) :: xs) := by
  rw [cut, if_neg hpos.ne', if_pos hlt]

theorem cut_cons_of_le {x k : Nat} (xs : List Nat) (hx : 0 < x) (hle : x ≤ k) :
    cut (x :: xs) k = (x :: (cut xs (k - x)).1, (cut xs (k - x)).2) := by
  rw [cut, if_neg (by omega), if_neg (Nat.not_lt.2 hle)]

/-- A cut makes one more leaf at most. -/
theorem length_cut_le (xs : List Nat) (k : Nat) :
    (cut xs k).1.length + (cut xs k).2.length ≤ xs.length + 1 := by
  fun_induction cut xs k with
  | case1 => simp
  | case2 => simp
  | case3 x xs k _ _ =>
      simp only [List.length_cons, List.length_nil]
      omega
  | case4 x xs k _ _ ih =>
      simp only [List.length_cons]
      omega

/-- A cut loses no leaf. -/
theorem le_length_cut (xs : List Nat) (k : Nat) :
    xs.length ≤ (cut xs k).1.length + (cut xs k).2.length := by
  fun_induction cut xs k with
  | case1 => simp
  | case2 => simp
  | case3 => simp
  | case4 x xs k _ _ ih =>
      simp only [List.length_cons]
      omega

/-- No leaf in front of a cut is empty or overfull. -/
theorem Filled.cut_fst (h : Filled xs) (k : Nat) : Filled (cut xs k).1 := by
  fun_induction cut xs k with
  | case1 => exact filled_nil
  | case2 => exact filled_nil
  | case3 x xs k hpos hlt =>
      have hx := (filled_cons_iff.1 h).1.2
      exact filled_cons_iff.2 ⟨⟨by omega, by omega⟩, filled_nil⟩
  | case4 x xs k _ _ ih =>
      rcases filled_cons_iff.1 h with ⟨hx, hxs⟩
      exact filled_cons_iff.2 ⟨hx, ih hxs⟩

/-- A cut inside the left one of two rows. -/
theorem cut_append_of_lt {k : Nat} (ys : List Nat) (h : k < xs.sum) :
    cut (xs ++ ys) k = ((cut xs k).1, (cut xs k).2 ++ ys) := by
  fun_induction cut xs k with
  | case1 => simp at h
  | case2 => simp
  | case3 x xs k hpos hlt => rw [List.cons_append, cut, if_neg hpos, if_pos hlt, List.cons_append]
  | case4 x xs k hpos hlt ih =>
      rw [List.sum_cons] at h
      rw [List.cons_append, cut, if_neg hpos, if_neg hlt, ih (by omega)]

/-- A cut behind the left one of two rows. -/
theorem Filled.cut_append {k : Nat} (hxs : Filled xs) (ys : List Nat) (h : xs.sum ≤ k) :
    cut (xs ++ ys) k = (xs ++ (cut ys (k - xs.sum)).1, (cut ys (k - xs.sum)).2) := by
  induction xs generalizing k with
  | nil => simp
  | cons x xs ih =>
      rcases filled_cons_iff.1 hxs with ⟨⟨hx, -⟩, hxs⟩
      rw [List.sum_cons] at h
      rw [List.cons_append, cut, if_neg (by omega), if_neg (by omega), ih hxs (by omega),
        List.sum_cons, Nat.sub_sub, List.cons_append]

/-- Cutting a row in which two leaves have merged leaves the same parts, or merged ones. -/
theorem MergesOnce.cut (h : MergesOnce xs ys) (k : Nat) :
    Merges (cut xs k).1 (cut ys k).1 ∧ Merges (cut xs k).2 (cut ys k).2 := by
  obtain @⟨front, back, x, y, hx, hy, fits⟩ := h
  induction front generalizing k with
  | nil =>
      rw [List.nil_append, List.nil_append]
      rcases Nat.eq_zero_or_pos k with rfl | hk
      · rw [cut_zero, cut_zero]
        exact ⟨.refl, .single (.intro [] back hx hy fits)⟩
      rcases Nat.lt_trichotomy k x with hfirst | rfl | hsecond
      · have hrest : x + y - k = x - k + y := by omega
        rw [cut_cons_of_lt _ hk hfirst, cut_cons_of_lt _ hk (by omega), hrest]
        exact ⟨.refl, .single (.intro [] back (by omega) hy (by omega))⟩
      · -- the cut separates the leaves that have merged
        rw [cut_cons_of_le _ hx (Nat.le_refl _), cut_cons_of_lt _ hk (by omega), Nat.sub_self,
          cut_zero, Nat.add_sub_cancel_left]
        exact ⟨.refl, .refl⟩
      · by_cases hboth : k < x + y
        · have hmerged : MergesOnce [x, k - x] [x + (k - x)] :=
            .intro [] [] hx (by omega) (by omega)
          have hrest : x + y - k = y - (k - x) := by omega
          rw [Nat.add_sub_cancel' hsecond.le] at hmerged
          rw [cut_cons_of_le _ hx hsecond.le, cut_cons_of_lt _ (by omega) (by omega),
            cut_cons_of_lt _ hk hboth, hrest]
          exact ⟨.single hmerged, .refl⟩
        · rw [cut_cons_of_le _ hx hsecond.le, cut_cons_of_le _ hy (by omega),
            cut_cons_of_le _ (by omega) (Nat.le_of_not_lt hboth), Nat.sub_add_eq]
          exact ⟨.single (.intro [] _ hx hy fits), .refl⟩
  | cons z front ih =>
      rw [List.cons_append, List.cons_append, Leaves.cut, Leaves.cut]
      split_ifs with hzero hlt
      · exact ⟨.refl, .single (.intro (z :: front) back hx hy fits)⟩
      · exact ⟨.refl, .single (.intro ((z - k) :: front) back hx hy fits)⟩
      · rcases ih (k - z) with ⟨hfirst, hsecond⟩
        exact ⟨hfirst.append_left [z], hsecond⟩

/-- Cutting a merged row leaves the same parts, or merged ones. -/
theorem Merges.cut (h : Merges xs ys) (k : Nat) :
    Merges (cut xs k).1 (cut ys k).1 ∧ Merges (cut xs k).2 (cut ys k).2 := by
  induction h with
  | refl => exact ⟨.refl, .refl⟩
  | tail _ hstep ih =>
      rcases hstep.cut k with ⟨hfirst, hsecond⟩
      exact ⟨ih.1.trans hfirst, ih.2.trans hsecond⟩

/-! ## The load -/

/-- The bytes that a row would hold if all leaves but the last were full.  A row without leaves
counts like a full leaf, since the next byte needs a new leaf after either. -/
def load (sizes : List Nat) : Nat :=
  leafCapacity * sizes.length + sizes.getLastD leafCapacity

theorem load_concat (xs : List Nat) (x : Nat) :
    load (xs ++ [x]) = leafCapacity * (xs.length + 1) + x := by
  rw [load, List.length_append, List.length_singleton, List.getLastD_concat]

/-- The last leaf is full at most. -/
theorem Filled.load_le (h : Filled xs) : load xs ≤ leafCapacity * (xs.length + 1) := by
  rcases List.eq_nil_or_concat' xs with rfl | ⟨front, x, rfl⟩
  · simp [load]
  · have hx := h.bounds.2
    rw [load_concat, List.length_append, List.length_singleton]
    unfold leafCapacity at *
    omega

/-- The last leaf holds at least one byte. -/
theorem Filled.lt_load (h : Filled xs) : leafCapacity * xs.length < load xs := by
  rcases List.eq_nil_or_concat' xs with rfl | ⟨front, x, rfl⟩
  · decide
  · have hx := h.bounds.1
    rw [load_concat, List.length_append, List.length_singleton]
    omega

/-- Merging two leaves does not raise the load: there is a leaf less, and the last one holds no
more than one leaf more. -/
theorem MergesOnce.load_le (h : MergesOnce xs ys) : load ys ≤ load xs := by
  obtain @⟨front, back, x, y, hx, hy, fits⟩ := h
  rcases List.eq_nil_or_concat' back with rfl | ⟨back', z, rfl⟩
  · rw [List.append_cons front x [y], load_concat, load_concat, List.length_append,
      List.length_singleton]
    unfold leafCapacity at *
    omega
  · have hrow : front ++ x :: y :: (back' ++ [z]) = (front ++ x :: y :: back') ++ [z] := by simp
    have hrow' : front ++ (x + y) :: (back' ++ [z]) = (front ++ (x + y) :: back') ++ [z] := by simp
    rw [hrow, hrow', load_concat, load_concat]
    apply Nat.add_le_add_right
    apply Nat.mul_le_mul_left
    simp only [List.length_append, List.length_cons]
    omega

/-- Merging does not raise the load. -/
theorem Merges.load_le (h : Merges xs ys) : load ys ≤ load xs := by
  induction h with
  | refl => exact Nat.le_refl _
  | tail _ hstep ih => exact hstep.load_le.trans ih

/-- A byte that is put behind a row raises the load by one.  It goes into the last leaf, or into a
new one if that is full. -/
theorem Filled.load_meet (h : Filled xs) : load (meet xs [1]) = load xs + 1 := by
  rcases List.eq_nil_or_concat' xs with rfl | ⟨front, x, rfl⟩
  · rfl
  · have hx := h.bounds.2
    by_cases hfull : leafCapacity < x + 1
    · rw [meet_of_lt _ hfull, List.append_cons front x [1], load_concat, load_concat,
        List.length_append, List.length_singleton]
      unfold leafCapacity at *
      omega
    · rw [meet_of_le _ (Nat.le_of_not_lt hfull), load_concat, load_concat]
      omega

end Leaves

namespace Rope

open Leaves

/-- Joining two trees puts their leaves side by side, or merges two of them. -/
theorem merges_join? {a b : Option Node} (ha : (Rope.mk a).Sound) (hb : (Rope.mk b).Sound) :
    Merges ((Rope.mk a).leafSizes ++ (Rope.mk b).leafSizes)
      (Rope.mk (Node.join? a b)).leafSizes := by
  rw [leafSizes_join? ha hb]
  split_ifs
  · exact merges_meet ha.filled hb.filled
  · exact .refl

end Rope

namespace Node

open Leaves

/-! ## Cutting a tree -/

/-- A tree that is cut has the leaves of the row that is cut, or merged ones: the parts of the leaf
at the cut are joined with what lies beside them on the way back. -/
theorem Sound.merges_split {n : Node} (h : n.Sound) (k : Nat) :
    Merges (cut n.leafSizes k).1 (Rope.mk (n.split k).1).leafSizes ∧
      Merges (cut n.leafSizes k).2 (Rope.mk (n.split k).2).leafSizes := by
  fun_induction Node.split n k with
  | case1 n =>
      rw [cut_zero]
      exact ⟨.refl, .refl⟩
  | case2 n k hpos hlong =>
      have hcut := h.filled.cut_append [] (h.sum_leafSizes.le.trans hlong)
      rw [List.append_nil, cut, List.append_nil] at hcut
      rw [hcut]
      exact ⟨.refl, .refl⟩
  | case3 k hpos mark bytes hshort =>
      rw [length_leaf] at hshort
      have hfirst : ¬ (bytes.take k).isEmpty = true := by
        rw [List.isEmpty_iff, ← List.length_eq_zero_iff, List.length_take]
        omega
      have hsecond : ¬ (bytes.drop k).isEmpty = true := by
        rw [List.isEmpty_iff, ← List.length_eq_zero_iff, List.length_drop]
        omega
      rw [leafSizes, cut_cons_of_lt _ (by omega) (by omega), chunk?, if_neg hfirst, chunk?,
        if_neg hsecond, Rope.leafSizes_root_some, Rope.leafSizes_root_some, leafSizes_ofChunk,
        leafSizes_ofChunk, List.length_take, List.length_drop, Nat.min_eq_left (by omega)]
      exact ⟨.refl, .refl⟩
  | case4 k hpos mark l r n h' hleft a b heq hshort ih =>
      rcases sound_branch_iff.1 h with ⟨hl, hr, -⟩
      rcases ih hl with ⟨hfirst, hsecond⟩
      have hb := (hl.split k).1.2
      rw [heq] at hfirst hsecond hb
      rw [leafSizes, cut_append_of_lt _ (hleft.trans_eq hl.sum_leafSizes.symm)]
      exact ⟨hfirst, (hsecond.append_right r.leafSizes).trans
        (Rope.merges_join? hb (Rope.sound_root_some hr))⟩
  | case5 mark l r n h' hpos hleft hshort =>
      rcases sound_branch_iff.1 h with ⟨hl, hr, -⟩
      rw [leafSizes, hl.filled.cut_append _ hl.sum_leafSizes.le, hl.sum_leafSizes, Nat.sub_self,
        cut_zero, List.append_nil]
      exact ⟨.refl, .refl⟩
  | case6 k hpos mark l r n h' hleft hne a b heq hshort ih =>
      rcases sound_branch_iff.1 h with ⟨hl, hr, -⟩
      rcases ih hr with ⟨hfirst, hsecond⟩
      have ha := (hr.split (k - l.length)).1.1
      rw [heq] at hfirst hsecond ha
      rw [leafSizes, hl.filled.cut_append _ (hl.sum_leafSizes.trans_le (Nat.le_of_not_lt hleft)),
        hl.sum_leafSizes]
      exact ⟨(hfirst.append_left l.leafSizes).trans
        (Rope.merges_join? (Rope.sound_root_some hl) ha), hsecond⟩

end Node

namespace Rope

open Leaves

/-! ## Typing -/

/-- Cutting a version leaves the leaves of the row that is cut, or merged ones. -/
theorem Sound.merges_split? {r : Rope} (h : r.Sound) (k : Nat) :
    Merges (cut r.leafSizes k).1 (Rope.mk (Node.split? r.root k).1).leafSizes ∧
      Merges (cut r.leafSizes k).2 (Rope.mk (Node.split? r.root k).2).leafSizes := by
  rcases r with ⟨_ | n⟩
  · exact ⟨.refl, .refl⟩
  · exact (h n rfl).merges_split k

/-- The load of a version at an offset: what a cut there would leave, in leaves behind the cut and
in bytes in front of it. -/
def loadAt (r : Rope) (offset : Nat) : Nat :=
  load (cut r.leafSizes offset).1 + leafCapacity * (cut r.leafSizes offset).2.length

/-- The leaves of a version hold less than its load if all but the last are full. -/
theorem Sound.leafCount_lt_loadAt {r : Rope} (h : r.Sound) (offset : Nat) :
    leafCapacity * r.leafCount < r.loadAt offset := by
  have hfront := (h.filled.cut_fst offset).lt_load
  have hcount := le_length_cut r.leafSizes offset
  rw [length_leafSizes] at hcount
  unfold loadAt leafCapacity at *
  omega

/-- The cut costs one leaf at most, and the last leaf in front of it is full at most. -/
theorem Sound.loadAt_le {r : Rope} (h : r.Sound) (offset : Nat) :
    r.loadAt offset ≤ leafCapacity * (r.leafCount + 2) := by
  have hfront := (h.filled.cut_fst offset).load_le
  have hcount := length_cut_le r.leafSizes offset
  rw [length_leafSizes] at hcount
  unfold loadAt leafCapacity at *
  omega

/-- A typed byte goes behind what is in front of the cut, and what is behind the cut stays. -/
theorem Reachable.parts_typed {r : Rope} (h : r.Reachable) (offset : Nat) (b : UInt8) :
    (r.frontPart ⟨offset, offset⟩ [b]).leafSizes =
        meet (Rope.mk (Node.split? r.root offset).1).leafSizes [1] ∧
      r.backPart ⟨offset, offset⟩ = ⟨(Node.split? r.root offset).2⟩ := by
  constructor
  · have hone : [b].length ≤ leafCapacity := Nat.one_le_two_pow (n := 10)
    have hbyte : Node.build? [b] = some (Node.ofChunk [b]) := by
      rw [Node.build?, Node.build, dif_pos hone]
      rfl
    have hmiddle : (Rope.mk (Node.build? [b])).Sound := Node.sound_build? [b]
    have hjoin := leafSizes_join? (Node.sound_split? h.sound offset).1.1 hmiddle
    rw [hbyte, if_pos (.inr rfl)] at hjoin
    rw [frontPart, hbyte]
    exact hjoin
  · rw [backPart, Nat.sub_self]
    cases (Node.split? r.root offset).2 with
    | none => rfl
    | some n => rw [Node.split?, Node.split.eq_def, if_pos rfl]

/-- A typed byte raises the load by one.  It goes into the last leaf in front of the cut or into a
new one, and the leaves that merge when the version is put together again only lower the load. -/
theorem Reachable.loadAt_typed {r s : Rope} (h : r.Reachable) {offset : Nat} {b : UInt8}
    (hs : r.splice ⟨offset, offset⟩ [b] = .ok s) :
    s.loadAt (offset + 1) ≤ r.loadAt offset + 1 := by
  have hbefore := (Node.sound_split? h.sound offset).1.1
  rcases h.sound.merges_split? offset with ⟨hcut, hcut'⟩
  rcases h.parts_typed offset b with ⟨hfront, hback⟩
  rcases h.sound_parts ⟨offset, offset⟩ [b] with ⟨hfrontSound, hbackSound⟩
  have hsum : (r.frontPart ⟨offset, offset⟩ [b]).leafSizes.sum = offset + 1 :=
    h.sum_frontPart (holds_of_splice_ok hs) [b]
  have hjoined : Merges ((r.frontPart ⟨offset, offset⟩ [b]).leafSizes ++
      (r.backPart ⟨offset, offset⟩).leafSizes) s.leafSizes := by
    rw [eq_join_of_splice (.inr (List.cons_ne_nil b [])) hs]
    exact merges_join? hfrontSound hbackSound
  -- the next cut finds the seam at the byte that was typed
  have hnext := hjoined.cut (offset + 1)
  rw [hfrontSound.filled.cut_append _ hsum.le, hsum, Nat.sub_self, cut_zero, List.append_nil,
    hfront, hback] at hnext
  have hload : load (cut s.leafSizes (offset + 1)).1 ≤ load (cut r.leafSizes offset).1 + 1 :=
    calc load (cut s.leafSizes (offset + 1)).1
        ≤ load (meet (Rope.mk (Node.split? r.root offset).1).leafSizes [1]) := hnext.1.load_le
      _ = load (Rope.mk (Node.split? r.root offset).1).leafSizes + 1 :=
          (show (Rope.mk _).Sound from hbefore).filled.load_meet
      _ ≤ load (cut r.leafSizes offset).1 + 1 := Nat.succ_le_succ hcut.load_le
  have hlength : (cut s.leafSizes (offset + 1)).2.length ≤ (cut r.leafSizes offset).2.length :=
    hnext.2.length_le.trans hcut'.length_le
  have hbehind := Nat.mul_le_mul_left leafCapacity hlength
  unfold loadAt
  omega

/-- Put bytes in one at a time, each behind the one before. -/
def typeIn (r : Rope) (offset : Nat) : Bytes → Except RangeError Rope
  | [] => .ok r
  | b :: rest =>
    match r.splice ⟨offset, offset⟩ [b] with
    | .ok s => s.typeIn (offset + 1) rest
    | .error e => .error e

/-- A run of typed bytes is never refused, and raises the load by its length. -/
theorem Reachable.exists_typeIn {r : Rope} (h : r.Reachable) {offset : Nat}
    (hoffset : offset ≤ r.length) (typed : Bytes) :
    ∃ s, r.typeIn offset typed = .ok s ∧ s.Reachable ∧
      s.toBytes = r.toBytes.take offset ++ typed ++ r.toBytes.drop offset ∧
      s.loadAt (offset + typed.length) ≤ r.loadAt offset + typed.length := by
  induction typed generalizing r offset with
  | nil =>
      refine ⟨r, rfl, h, ?_, Nat.le_refl _⟩
      rw [List.append_nil, List.take_append_drop]
  | cons b rest ih =>
      have hholds : r.Holds ⟨offset, offset⟩ := ⟨Nat.le_refl _, hoffset⟩
      rcases h.exists_splice hholds [b] with ⟨next, hnext, hreachable, hbytes⟩
      have hfront : (r.toBytes.take offset ++ [b]).length = offset + 1 := by
        rw [h.length_eq] at hoffset
        rw [List.length_append, List.length_take, Nat.min_eq_left hoffset, List.length_singleton]
      have hlength : offset + 1 ≤ next.length := by
        rw [hreachable.length_eq, hbytes, List.length_append, hfront]
        exact Nat.le_add_right _ _
      rcases ih hreachable hlength with ⟨s, hs, hsreachable, hsbytes, hload⟩
      refine ⟨s, ?_, hsreachable, ?_, ?_⟩
      · rw [typeIn, hnext]
        exact hs
      · rw [hsbytes, hbytes, List.take_left' hfront, List.drop_left' hfront]
        simp
      · have hstep := h.loadAt_typed hnext
        rw [List.length_cons, Nat.add_comm rest.length, ← Nat.add_assoc]
        omega

/-- Bytes that are typed one after the other are put in at their offset, and they fill leaves: a run
of them makes the leaves that it needs, and no more than one leaf besides. -/
theorem typing_fills_leaves {r : Rope} (h : r.Reachable) {offset : Nat}
    (hoffset : offset ≤ r.length) (typed : Bytes) :
    ∃ s, r.typeIn offset typed = .ok s ∧
      s.toBytes = r.toBytes.take offset ++ typed ++ r.toBytes.drop offset ∧
      s.leafCount ≤ r.leafCount + (typed.length + 1023) / 1024 + 1 := by
  rcases h.exists_typeIn hoffset typed with ⟨s, hs, hreachable, hbytes, hload⟩
  have hstart := h.sound.loadAt_le offset
  have hend := hreachable.sound.leafCount_lt_loadAt (offset + typed.length)
  refine ⟨s, hs, hbytes, ?_⟩
  unfold leafCapacity at hstart hend
  omega

/-- Two thousand bytes typed into the middle of five thousand leave eight leaves at most. -/
theorem typing_fills_leaves_middle :
    (ofBytes (List.replicate 5000 0)).Reachable ∧
      2500 ≤ (ofBytes (List.replicate 5000 0)).length ∧
      ∃ s, (ofBytes (List.replicate 5000 0)).typeIn 2500 (List.replicate 2000 1) = .ok s ∧
        s.leafCount ≤ 8 := by
  have hreachable : (ofBytes (List.replicate 5000 0)).Reachable := .ofBytes _
  have hoffset : 2500 ≤ (ofBytes (List.replicate 5000 0)).length := by
    rw [length_ofBytes, List.length_replicate]
    decide
  have hbytes : List.replicate 5000 (0 : UInt8) ≠ [] := by
    rw [Ne, List.replicate_eq_nil_iff]
    decide
  have hcount : (ofBytes (List.replicate 5000 0)).leafCount = 5 := by
    rw [leafCount_ofBytes hbytes, List.length_replicate]
    decide
  rcases typing_fills_leaves hreachable hoffset (List.replicate 2000 1) with ⟨s, hs, -, hleaves⟩
  rw [hcount, List.length_replicate] at hleaves
  exact ⟨hreachable, hoffset, s, hs, hleaves⟩

end Rope

end HexEditor
