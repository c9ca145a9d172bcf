import HexEditor.Proofs.Rope.Layout
import HexEditor.Proofs.Rope.Version

/-!
# The seams of an edit

An edit has a seam at either end of the replacement.  A seam is tight if the leaves that meet there
do not fit into one.  The seam in front of a replacement always is.  At the last seam two trees are
joined, and their edge leaves merge only if one of the trees is a lone leaf: when both are branches,
small leaves stay next to each other.

Main results:

- Definitions `Leaves.Tight` and `Rope.TightAt`: the leaves that meet at an offset do not fit into
  one.
- Theorems `Leaves.tight_meet` and `Leaves.Filled.tight_append_iff`: rows that are put together with
  and without merging.
- Definition `Rope.Crumbles` and theorem `Rope.seams_tight_iff`: when an edit leaves small leaves
  next to each other.
- Theorem `Rope.small_leaves_stay`: a deletion that does.
-/

namespace HexEditor

namespace Leaves

variable {xs ys : List Nat} {offset : Nat}

/-! ## Boundaries in a row of leaves -/

/-- If two leaves meet at the offset, they do not fit into one. -/
def Tight (sizes : List Nat) (offset : Nat) : Prop :=
  ∀ front x y back, sizes = front ++ x :: y :: back → front.sum + x = offset →
    leafCapacity < x + y

/-- The leaves that meet are the ends of the two parts into which the offset cuts the row. -/
theorem tight_iff {sizes : List Nat} :
    Tight sizes offset ↔
      ∀ front x y back, sizes = (front ++ [x]) ++ y :: back → (front ++ [x]).sum = offset →
        leafCapacity < x + y := by
  simp only [Tight, List.append_assoc, List.singleton_append, List.sum_append, List.sum_singleton]

/-- Two ways to cut a filled row at the same offset are the same. -/
theorem Filled.eq_of_sum_eq {xs' ys' : List Nat} (h : Filled (xs ++ ys))
    (heq : xs ++ ys = xs' ++ ys') (hsum : xs.sum = xs'.sum) : xs = xs' ∧ ys = ys' := by
  rcases List.append_eq_append_iff.1 heq with ⟨zs, rfl, rfl⟩ | ⟨zs, rfl, rfl⟩
  · have hnil : zs = [] := by
      apply (filled_append_iff.1 (filled_append_iff.1 h).2).1.eq_nil_of_sum_eq_zero
      rw [List.sum_append] at hsum
      omega
    simp [hnil]
  · have hnil : zs = [] := by
      apply (filled_append_iff.1 (filled_append_iff.1 h).1).2.eq_nil_of_sum_eq_zero
      rw [List.sum_append] at hsum
      omega
    simp [hnil]

/-- Of two cuts of a row, the one at the smaller offset lies within the front part of the other. -/
theorem exists_of_sum_lt {xs' ys' : List Nat} (heq : xs ++ ys = xs' ++ ys')
    (hsum : xs'.sum < xs.sum) : ∃ z zs, xs = xs' ++ z :: zs ∧ ys' = z :: (zs ++ ys) := by
  rcases List.append_eq_append_iff.1 heq with ⟨zs, rfl, -⟩ | ⟨zs, rfl, rfl⟩
  · rw [List.sum_append] at hsum
    omega
  · cases zs with
    | nil =>
        rw [List.append_nil] at hsum
        omega
    | cons z zs => exact ⟨z, zs, rfl, rfl⟩

/-- No two leaves meet at the ends of a row. -/
theorem Filled.tight_of_end (h : Filled xs) (hend : offset = 0 ∨ xs.sum ≤ offset) :
    Tight xs offset := by
  rintro front x y back rfl hoffset
  have hx := h.bounds.1
  have hy := (h y (by simp)).1
  simp only [List.sum_append, List.sum_cons] at hend
  omega

/-- Where two rows are put side by side, the last leaf of the one meets the first of the other. -/
theorem Filled.tight_append_iff (h : Filled (xs ++ ys)) :
    Tight (xs ++ ys) xs.sum ↔
      ∀ x ∈ xs.getLast?, ∀ y ∈ ys.head?, leafCapacity < x + y := by
  rw [tight_iff]
  constructor
  · intro htight x hx y hy
    obtain ⟨front, rfl⟩ := List.getLast?_eq_some_iff.1 hx
    obtain ⟨back, rfl⟩ := List.head?_eq_some_iff.1 hy
    exact htight front x y back rfl rfl
  · intro hedge front x y back hcut hsum
    rcases h.eq_of_sum_eq hcut hsum.symm with ⟨rfl, rfl⟩
    exact hedge x (by simp) y (by simp)

/-- No boundary lies inside a leaf that holds bytes of both rows. -/
theorem tight_of_merged {x y : Nat} (hx : 0 < x) (hy : 0 < y) :
    Tight (xs ++ (x + y) :: ys) (xs.sum + x) := by
  rw [tight_iff]
  intro front u v back hcut hsum
  -- the leaf with bytes of both rows would lie in front of the boundary as a whole
  have hbehind : xs.sum < (front ++ [u]).sum := by omega
  rcases exists_of_sum_lt hcut.symm hbehind with ⟨z, zs, hfront, hleaf⟩
  rw [hfront, List.sum_append, List.sum_cons, ← (List.cons.inj hleaf).1] at hsum
  omega

/-- Rows that meet are tight where they do. -/
theorem tight_meet (hxs : Filled xs) (hys : Filled ys) : Tight (meet xs ys) xs.sum := by
  rcases List.eq_nil_or_concat' xs with rfl | ⟨front, x, rfl⟩
  · exact hys.tight_of_end (.inl rfl)
  cases ys with
  | nil =>
      rw [meet_nil_right]
      exact hxs.tight_of_end (.inr (Nat.le_refl _))
  | cons y back =>
      have hx := hxs.bounds.1
      have hy := (filled_cons_iff.1 hys).1.1
      by_cases hfits : x + y ≤ leafCapacity
      · rw [meet_of_le _ hfits, List.sum_append, List.sum_singleton]
        exact tight_of_merged hx hy
      · have hlong := Nat.lt_of_not_le hfits
        have hrow : meet (front ++ [x]) (y :: back) = (front ++ [x]) ++ y :: back := by
          rw [meet_of_lt _ hlong, List.append_assoc, List.singleton_append]
        rw [hrow, (filled_append_iff.2 ⟨hxs, hys⟩).tight_append_iff]
        simpa using hlong

/-- A boundary inside a row stays tight when leaves are put behind the row. -/
theorem Tight.append (h : Tight xs offset) (hin : offset < xs.sum) :
    Tight (xs ++ ys) offset := by
  rw [tight_iff] at h ⊢
  intro front x y back hcut hsum
  rcases exists_of_sum_lt hcut (hsum.trans_lt hin) with ⟨z, zs, rfl, hback⟩
  rw [(List.cons.inj hback).1]
  exact h front x z zs rfl hsum

/-- A boundary inside a row stays tight also if the last leaf of the row takes in more bytes. -/
theorem Tight.meet (h : Tight xs offset) (hin : offset < xs.sum) :
    Tight (meet xs ys) offset := by
  rcases meet_cases xs ys with heq | ⟨front', u, v, back', rfl, rfl, -, heq⟩
  · rw [heq]
    exact h.append hin
  rw [List.sum_append, List.sum_singleton] at hin
  rw [heq]
  rw [tight_iff] at h ⊢
  intro front x y back hcut hsum
  rcases List.append_eq_append_iff.1 hcut with ⟨zs, hzs, hback⟩ | ⟨zs, rfl, hback⟩
  · cases zs with
    | nil =>
        -- the leaf that has taken in more bytes begins at the boundary
        rw [List.append_nil] at hzs
        rw [List.nil_append, List.cons.injEq] at hback
        have hlong := h front x u [] (by rw [hzs]) hsum
        omega
    | cons z zs =>
        rw [List.cons_append, List.cons.injEq] at hback
        rw [hzs, List.sum_append, List.sum_cons, ← hback.1] at hsum
        omega
  · cases zs with
    | nil =>
        rw [List.nil_append, List.cons.injEq] at hback
        have hlong := h front x u [] (by rw [List.append_nil]) hsum
        omega
    | cons z zs =>
        rw [List.cons_append, List.cons.injEq] at hback
        rw [hback.1]
        exact h front x z (zs ++ [u]) (by simp) hsum

end Leaves

namespace Rope

open Leaves

variable {r s : Rope} {range : Range} {replacement : Bytes}

/-! ## Joined versions -/

/-- If two leaves of the version meet at the offset, they do not fit into one. -/
def TightAt (r : Rope) (offset : Nat) : Prop :=
  Tight r.leafSizes offset

/-- Joining the two versions leaves small leaves next to each other: neither is a lone leaf, and
the leaves that meet would fit into one. -/
def Loose (a b : Rope) : Prop :=
  a.leafCount ≠ 1 ∧ b.leafCount ≠ 1 ∧
    ∃ x ∈ a.leafSizes.getLast?, ∃ y ∈ b.leafSizes.head?, x + y ≤ leafCapacity

variable {a b : Option Node}

/-- Where two trees are joined, the leaves do not fit into one unless the join is loose. -/
theorem tightAt_join_iff (ha : (Rope.mk a).Sound) (hb : (Rope.mk b).Sound) :
    (Rope.mk (Node.join? a b)).TightAt (Rope.mk a).leafSizes.sum ↔ ¬ Loose ⟨a⟩ ⟨b⟩ := by
  rw [TightAt, leafSizes_join? ha hb]
  split_ifs with hlone
  · refine iff_of_true (tight_meet ha.filled hb.filled) fun hloose => ?_
    exact hlone.elim hloose.1 hloose.2.1
  · rw [not_or] at hlone
    rw [(filled_append_iff.2 ⟨ha.filled, hb.filled⟩).tight_append_iff]
    constructor
    · rintro htight ⟨-, -, x, hx, y, hy, hfits⟩
      exact absurd (htight x hx y hy) (Nat.not_lt.2 hfits)
    · intro hloose x hx y hy
      by_contra hfits
      exact hloose ⟨hlone.1, hlone.2, x, hx, y, hy, Nat.le_of_not_lt hfits⟩

/-- A boundary stays tight when another tree is joined behind it. -/
theorem TightAt.join? {offset : Nat} (h : (Rope.mk a).TightAt offset) (ha : (Rope.mk a).Sound)
    (hb : (Rope.mk b).Sound) (hin : offset < (Rope.mk a).leafSizes.sum) :
    (Rope.mk (Node.join? a b)).TightAt offset := by
  rw [TightAt, leafSizes_join? ha hb]
  split_ifs
  · exact Tight.meet h hin
  · exact Tight.append h hin

/-- A tree of a replacement is a lone leaf, or its first leaf is full. -/
theorem not_loose_build? (ha : (Rope.mk a).Sound) (bytes : Bytes) :
    ¬ Loose ⟨a⟩ ⟨Node.build? bytes⟩ := by
  rintro ⟨-, hmany, x, hx, y, hy, hfits⟩
  have hx := (ha.filled x (List.mem_of_getLast? hx)).1
  unfold Node.build? at hmany hy
  split_ifs at hmany hy with hempty
  · cases hy
  have hpos : 0 < bytes.length := List.length_pos_iff.2 (mt List.isEmpty_iff.2 hempty)
  rw [← length_leafSizes, leafSizes_root_some, Node.leafSizes_build hpos] at hmany
  rw [leafSizes_root_some, Node.leafSizes_build hpos] at hy
  -- with a second leaf, the first one is not the last and therefore full
  unfold layout at hmany hy
  cases hfull : Node.leavesFor bytes.length - 1 with
  | zero =>
      rw [hfull] at hmany
      exact hmany rfl
  | succ k =>
      rw [hfull, List.replicate_succ, List.cons_append, List.head?_cons, Option.mem_some_iff] at hy
      omega

/-! ## The seams of an edit -/

/-- What an edit puts in front of its last seam: the bytes in front of the range, joined with the
replacement. -/
def frontPart (r : Rope) (range : Range) (replacement : Bytes) : Rope :=
  ⟨Node.join? (Node.split? r.root range.start).1 (Node.build? replacement)⟩

/-- What an edit puts behind its last seam: the bytes behind the range. -/
def backPart (r : Rope) (range : Range) : Rope :=
  ⟨(Node.split? (Node.split? r.root range.start).2 (range.stop - range.start)).2⟩

/-- The edit leaves leaves that would fit into one next to each other at its last seam. -/
def Crumbles (r : Rope) (range : Range) (replacement : Bytes) : Prop :=
  Loose (r.frontPart range replacement) (r.backPart range)

/-- An edit joins what it puts in front of its last seam with what it puts behind. -/
theorem eq_join_of_splice (hedit : range.start < range.stop ∨ replacement ≠ [])
    (hs : r.splice range replacement = .ok s) :
    s = ⟨Node.join? (r.frontPart range replacement).root (r.backPart range).root⟩ := by
  have hidle : ¬ (range.isEmpty && replacement.isEmpty) = true := by
    rw [Bool.and_eq_true, Range.isEmpty, decide_eq_true_iff, List.isEmpty_iff]
    rintro ⟨hempty, hnothing⟩
    exact hedit.elim (Nat.not_lt.2 hempty) (· hnothing)
  rw [splice_eq_join (holds_of_splice_ok hs) hidle] at hs
  exact (Except.ok.inj hs).symm

/-- What an edit puts in front of its last seam, and behind it, is sound. -/
theorem Reachable.sound_parts (h : r.Reachable) (range : Range) (replacement : Bytes) :
    (r.frontPart range replacement).Sound ∧ (r.backPart range).Sound := by
  rcases Node.sound_split? h.sound range.start with ⟨⟨hbefore, hrest⟩, -⟩
  rcases Node.sound_split? hrest (range.stop - range.start) with ⟨⟨-, hback⟩, -⟩
  exact ⟨Node.sound_join? hbefore (Node.sound_build? replacement), hback⟩

/-- The leaves in front of the range hold the bytes in front of it. -/
theorem Reachable.sum_before (h : r.Reachable) (hrange : r.Holds range) :
    (Rope.mk (Node.split? r.root range.start).1).leafSizes.sum = range.start := by
  have hin := hrange.1.trans hrange.2
  rw [h.length_eq] at hin
  rw [sum_leafSizes, (Node.sound_split? h.sound range.start).2.1, List.length_take]
  exact Nat.min_eq_left hin

/-- The leaves in front of the last seam hold the replacement as well. -/
theorem Reachable.sum_frontPart (h : r.Reachable) (hrange : r.Holds range)
    (replacement : Bytes) :
    (r.frontPart range replacement).leafSizes.sum = range.start + replacement.length := by
  rw [sum_leafSizes, frontPart, toBytes_join?, List.length_append, ← sum_leafSizes,
    h.sum_before hrange, toBytes_build?]

/-- When the last seam of an edit is tight, and that the seam in front of a replacement always is.
The leaves that meet at the last seam are left apart, although they would fit into one, exactly if
there are other leaves both in front of the one and behind the other. -/
theorem seams_tight_iff (h : r.Reachable) (hedit : range.start < range.stop ∨ replacement ≠ [])
    (hs : r.splice range replacement = .ok s) :
    (replacement ≠ [] → s.TightAt range.start) ∧
      (s.TightAt (range.start + replacement.length) ↔ ¬ r.Crumbles range replacement) := by
  have hrange := holds_of_splice_ok hs
  have hbefore := (Node.sound_split? h.sound range.start).1.1
  have hmiddle := Node.sound_build? replacement
  have hstart := h.sum_before hrange
  have hseam := h.sum_frontPart hrange replacement
  rcases h.sound_parts range replacement with ⟨hfront, hback⟩
  rw [eq_join_of_splice hedit hs]
  constructor
  · intro hreplacement
    have hpos := List.length_pos_iff.2 hreplacement
    have htight := (tightAt_join_iff hbefore hmiddle).2 (not_loose_build? hbefore replacement)
    rw [hstart] at htight
    have hin : range.start < (r.frontPart range replacement).leafSizes.sum := by omega
    exact TightAt.join? htight hfront hback hin
  · rw [← hseam]
    exact tightAt_join_iff hfront hback

/-- In front of the second byte and behind the third lie lone leaves, and cutting out what is
between them joins them. -/
theorem seams_tight_iff_lone :
    ∃ s, (ofBytes [1, 2, 3, 4]).splice ⟨1, 3⟩ [] = .ok s ∧ s.TightAt 1 := by
  have hreachable : (ofBytes [1, 2, 3, 4]).Reachable := .ofBytes _
  have hholds : (ofBytes [1, 2, 3, 4]).Holds ⟨1, 3⟩ :=
    ⟨by decide, by rw [length_ofBytes]; decide⟩
  rcases hreachable.exists_splice hholds [] with ⟨s, hs, -⟩
  refine ⟨s, hs, (seams_tight_iff hreachable (.inl (by decide)) hs).2.2 fun hloose => ?_⟩
  apply hloose.1
  simp [frontPart, root_ofBytes, Node.build, Node.build?, Node.split?, Node.split, Node.ofChunk,
    Node.chunk?, Node.join?, leafCapacity, leafCount, Node.leafCount]

end Rope

namespace Node

/-- A leaf of zero bytes. -/
def zeros (n : Nat) : Node :=
  ofChunk (List.replicate n 0)

@[simp]
theorem length_zeros (n : Nat) : (zeros n).length = n :=
  List.length_replicate

@[simp]
theorem height_zeros (n : Nat) : (zeros n).height = 1 :=
  rfl

@[simp]
theorem leafSizes_zeros (n : Nat) : (zeros n).leafSizes = [n] :=
  congrArg (fun size => [size]) List.length_replicate

/-- Cutting a leaf of zero bytes. -/
theorem split_zeros {n k : Nat} (hpos : 0 < k) (hlt : k < n) :
    split (zeros n) k = (some (zeros k), some (zeros (n - k))) := by
  have hfront : (List.replicate n (0 : UInt8)).take k = List.replicate k 0 := by
    rw [List.take_replicate, Nat.min_eq_left hlt.le]
  have hfirst : chunk? (List.replicate k 0) = some (zeros k) :=
    if_neg (by rw [List.isEmpty_iff, List.replicate_eq_nil_iff]; omega)
  have hsecond : chunk? (List.replicate (n - k) 0) = some (zeros (n - k)) :=
    if_neg (by rw [List.isEmpty_iff, List.replicate_eq_nil_iff]; omega)
  have hshort : ¬ (zeros n).length ≤ k := by
    rw [length_zeros]
    omega
  rw [split.eq_def, if_neg hpos.ne', if_neg hshort, zeros, ofChunk]
  simp only [hfront, hfirst, List.drop_replicate, hsecond]

/-- Cutting two trees that are side by side inside the left one. -/
theorem split_pair_left {l r : Node} {k : Nat} (hpos : 0 < k) (hlt : k < l.length) :
    split (pair l r) k = ((split l k).1, join? (split l k).2 (some r)) := by
  have hshort : ¬ (pair l r).length ≤ k := by
    rw [length_pair]
    omega
  rw [pair, split, if_neg hpos.ne', ← pair, if_neg hshort, if_pos hlt]

/-- Cutting two trees that are side by side inside the right one. -/
theorem split_pair_right {l r : Node} {k : Nat} (hlt : l.length < k)
    (hin : k < l.length + r.length) :
    split (pair l r) k =
      (join? (some l) (split r (k - l.length)).1, (split r (k - l.length)).2) := by
  have hshort : ¬ (pair l r).length ≤ k := by
    rw [length_pair]
    omega
  rw [pair, split, if_neg (by omega), ← pair, if_neg hshort, if_neg (by omega),
    if_neg (by omega)]

/-- Two leaves of zero bytes that do not fit into one. -/
theorem join_zeros {m n : Nat} (h : leafCapacity < m + n) :
    join (zeros m) (zeros n) = pair (zeros m) (zeros n) := by
  have hlong : leafCapacity < (List.replicate m (0 : UInt8)).length +
      (List.replicate n (0 : UInt8)).length := by
    rw [List.length_replicate, List.length_replicate]
    exact h
  rw [zeros, zeros, ofChunk, ofChunk, join, if_pos hlong]

theorem join_zeros_pair (n : Nat) (l r : Node) :
    join (zeros n) (pair l r) = balance (join (zeros n) l) r := by
  rw [zeros, ofChunk, pair, join]

theorem join_pair_zeros (l r : Node) (n : Nat) :
    join (pair l r) (zeros n) = balance l (join r (zeros n)) := by
  rw [zeros, ofChunk, pair, join]

/-- Two branches of close heights are joined as they are. -/
theorem join_pair_pair {a b c d : Node} (hlow : (pair a b).height ≤ (pair c d).height + 1)
    (hhigh : (pair c d).height ≤ (pair a b).height + 1) :
    join (pair a b) (pair c d) = pair (pair a b) (pair c d) := by
  rw [height_pair, height_pair] at hlow hhigh
  rw [pair, pair, join, if_neg (by omega), if_neg (by omega)]

/-- Two full leaves of zero bytes on either side of the middle. -/
theorem build_zeros : build (List.replicate 4096 0) =
    pair (pair (zeros 1024) (zeros 1024)) (pair (zeros 1024) (zeros 1024)) := by
  have hleaf : build (List.replicate 1024 0) = zeros 1024 := by
    rw [build, dif_pos (by rw [List.length_replicate]; decide), zeros]
  have hbuild : ∀ n, leafCapacity < n → 2 * leftShare n = n →
      build (List.replicate n 0) = balance (build (List.replicate (leftShare n) 0))
        (build (List.replicate (leftShare n) 0)) := by
    intro n hlong hshare
    have hlong' : ¬ (List.replicate n (0 : UInt8)).length ≤ leafCapacity := by
      rw [List.length_replicate]
      omega
    rw [build, dif_neg hlong', List.length_replicate, List.take_replicate, List.drop_replicate,
      Nat.min_eq_left (by omega), show n - leftShare n = leftShare n by omega]
  have hhalf : build (List.replicate 2048 0) = pair (zeros 1024) (zeros 1024) := by
    rw [hbuild 2048 (by decide) (by decide), show leftShare 2048 = 1024 by decide, hleaf]
    exact balance_eq_pair (Nat.le_succ _) (Nat.le_succ _)
  rw [hbuild 4096 (by decide) (by decide), show leftShare 4096 = 2048 by decide, hhalf]
  exact balance_eq_pair (Nat.le_succ _) (Nat.le_succ _)

end Node

namespace Rope

open Node (zeros)

/-- Four full leaves lose one byte of the second.  The ten bytes in front of it and the 1013 behind
it stay in leaves of their own. -/
theorem small_leaves_stay :
    ∃ s, (ofBytes (List.replicate 4096 0)).splice ⟨1034, 1035⟩ [] = .ok s ∧
      s.leafSizes = [1024, 10, 1013, 1024, 1024] ∧ ¬ s.TightAt 1034 := by
  have hbytes : List.replicate 4096 (0 : UInt8) ≠ [] := by
    rw [Ne, List.replicate_eq_nil_iff]
    decide
  have hholds : (ofBytes (List.replicate 4096 0)).Holds ⟨1034, 1035⟩ :=
    ⟨by decide, by rw [length_ofBytes, List.length_replicate]; decide⟩
  rcases (Reachable.ofBytes _).exists_splice hholds [] with ⟨s, hs, -⟩
  have hroot := root_ofBytes hbytes
  rw [Node.build_zeros] at hroot
  have hfirst : Node.split (Node.pair (Node.pair (zeros 1024) (zeros 1024))
      (Node.pair (zeros 1024) (zeros 1024))) 1034 =
        (some (Node.pair (zeros 1024) (zeros 10)),
          some (Node.pair (Node.pair (zeros 1014) (zeros 1024)) (zeros 1024))) := by
    rw [Node.split_pair_left (by decide) (by simp), Node.split_pair_right (by simp) (by simp),
      Node.length_zeros, Node.split_zeros (by decide) (by decide)]
    simp only [Node.join?]
    rw [Node.join_zeros (by decide), Node.join_zeros_pair, Node.join_zeros (by decide),
      Node.balance_eq_pair (by simp) (by simp)]
  have hsecond : Node.split (Node.pair (Node.pair (zeros 1014) (zeros 1024)) (zeros 1024)) 1 =
      (some (zeros 1), some (Node.pair (zeros 1013) (Node.pair (zeros 1024) (zeros 1024)))) := by
    rw [Node.split_pair_left (by decide) (by simp), Node.split_pair_left (by decide) (by simp),
      Node.split_zeros (by decide) (by decide)]
    simp only [Node.join?]
    rw [Node.join_zeros (by decide), Node.join_pair_zeros, Node.join_zeros (by decide),
      Node.balance_eq_pair (by simp) (by simp)]
  have hsizes : s.leafSizes = [1024, 10, 1013, 1024, 1024] := by
    rw [eq_join_of_splice (.inl (by decide)) hs, frontPart, backPart, hroot]
    simp only [Node.split?, hfirst, hsecond, Node.build?, List.isEmpty_nil, if_true, Node.join?]
    rw [Node.join_pair_pair (by simp) (by simp)]
    simp
  refine ⟨s, hs, hsizes, fun htight => ?_⟩
  exact absurd (htight [1024] 10 1013 [1024, 1024] hsizes rfl) (by decide)

end Rope

end HexEditor
