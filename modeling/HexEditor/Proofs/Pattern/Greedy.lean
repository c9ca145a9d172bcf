import HexEditor.Offset
import HexEditor.Pattern.Basic
import Mathlib.Tactic.Common

/-!
# The greedy matches of a byte string

The matches of a pattern are found by comparing it with the bytes at one position
after the other.  Where it meets them, the search goes on behind the match, and
otherwise at the next position.  This is how a match list is understood, and the
searches of the editor are measured against it.

Main results:

- Theorems `Pattern.greedyFrom_of_heads` and `Pattern.greedyFrom_of_not_heads`: one
  step of the comparison.
- Theorem `Pattern.greedyFrom_drop`: positions that begin no match can be passed all
  at once.
- Theorem `Pattern.mem_greedyFrom`: matches lie within the bytes.
- Theorem `Pattern.exists_mem_greedyFrom`: wherever the pattern meets the bytes, a match is in
  the way or begins.
- Definition `Pattern.matchesIn` and theorems `Pattern.mem_matchesIn`,
  `Pattern.pairwise_matchesIn` and `Pattern.exists_mem_matchesIn`: the matches in a range.
-/

namespace HexEditor

namespace Pattern

variable {pattern : Pattern}

/-! ## Comparing at one position -/

/-- A pattern meets no fewer bytes than it has pieces. -/
theorem length_le_of_heads {bytes : Bytes} (h : heads pattern bytes = true) :
    pattern.length ≤ bytes.length := by
  fun_induction heads pattern bytes with
  | case1 => exact Nat.zero_le _
  | case2 => cases h
  | case3 p pattern b bytes ih =>
      rw [Bool.and_eq_true] at h
      exact Nat.succ_le_succ (ih h.2)

/-- Whether a pattern meets the bytes depends on as many bytes as it has pieces. -/
theorem heads_append {bytes : Bytes} (more : Bytes) (h : pattern.length ≤ bytes.length) :
    heads pattern (bytes ++ more) = heads pattern bytes := by
  fun_induction heads pattern bytes with
  | case1 => rw [heads]
  | case2 p pattern => cases h
  | case3 p pattern b bytes ih =>
      rw [List.cons_append, heads, ih (Nat.le_of_succ_le_succ h)]

/-- A pattern that begins with a literal byte meets no bytes that begin with
another one. -/
theorem not_heads_of_literal {byte b : UInt8} {pieces : List Piece} {bytes : Bytes}
    (h : (b == byte) = false) : heads (.literal byte :: pieces) (b :: bytes) = false := by
  have hne : (byte == b) = false := by rw [BEq.comm, h]
  rw [heads, Piece.matches, hne, Bool.false_and]

/-! ## Stepping through the positions -/

/-- The bytes of a match are passed without comparing. -/
theorem greedyFrom_skip (offset skip : Nat) (bytes : Bytes) :
    greedyFrom pattern offset skip bytes =
      greedyFrom pattern (offset + skip) 0 (bytes.drop skip) := by
  induction bytes generalizing offset skip with
  | nil => rw [List.drop_nil, greedyFrom, greedyFrom]
  | cons b bytes ih =>
      cases skip with
      | zero => rfl
      | succ skip =>
          rw [greedyFrom, ih, List.drop_succ_cons]
          congr 1
          omega

/-- Where the pattern meets the bytes, the search goes on behind the match. -/
theorem greedyFrom_of_heads (hne : pattern ≠ []) {bytes : Bytes} (offset : Nat)
    (h : heads pattern bytes = true) :
    greedyFrom pattern offset 0 bytes =
      offset :: greedyFrom pattern (offset + pattern.length) 0
        (bytes.drop pattern.length) := by
  have hpos : 0 < pattern.length := List.length_pos_iff.2 hne
  have hlength := length_le_of_heads h
  cases bytes with
  | nil => exact absurd hlength (Nat.not_le.2 hpos)
  | cons b bytes =>
      have hsucc : pattern.length = pattern.length - 1 + 1 := by omega
      rw [greedyFrom, if_pos h, greedyFrom_skip, hsucc, List.drop_succ_cons,
        Nat.add_sub_cancel]
      congr 2
      omega

/-- Where it does not, the search goes on at the next position. -/
theorem greedyFrom_of_not_heads {bytes : Bytes} (offset : Nat)
    (h : heads pattern bytes = false) :
    greedyFrom pattern offset 0 bytes =
      greedyFrom pattern (offset + 1) 0 (bytes.drop 1) := by
  cases bytes with
  | nil => rw [List.drop_nil, greedyFrom, greedyFrom]
  | cons b bytes => rw [greedyFrom, if_neg (by rw [h]; exact Bool.false_ne_true)]; rfl

/-- Positions that begin no match can be passed all at once. -/
theorem greedyFrom_drop {bytes : Bytes} {k : Nat}
    (h : ∀ j < k, heads pattern (bytes.drop j) = false) (offset : Nat) :
    greedyFrom pattern offset 0 bytes = greedyFrom pattern (offset + k) 0 (bytes.drop k) := by
  induction k with
  | zero => rfl
  | succ k ih =>
      rw [ih fun j hj => h j (Nat.lt_succ_of_lt hj),
        greedyFrom_of_not_heads _ (h k (Nat.lt_succ_self k)), List.drop_drop, Nat.add_assoc]

/-- Too few bytes hold no match. -/
theorem greedyFrom_of_short {bytes : Bytes} (offset : Nat)
    (h : bytes.length < pattern.length) : greedyFrom pattern offset 0 bytes = [] := by
  induction bytes generalizing offset with
  | nil => rw [greedyFrom]
  | cons b bytes ih =>
      have hnot : heads pattern (b :: bytes) = false := by
        rw [Bool.eq_false_iff]
        intro hheads
        exact absurd (length_le_of_heads hheads) (Nat.not_le.2 h)
      rw [greedyFrom_of_not_heads offset hnot]
      exact ih (offset + 1) (Nat.lt_of_succ_lt h)

/-- The matches are where they are found, counted from where the bytes begin. -/
theorem greedyFrom_add (pattern : Pattern) (offset skip k : Nat) (bytes : Bytes) :
    greedyFrom pattern (offset + k) skip bytes =
      (greedyFrom pattern offset skip bytes).map (· + k) := by
  fun_induction greedyFrom pattern offset skip bytes with
  | case1 => rw [greedyFrom, List.map_nil]
  | case2 offset b bytes skip ih =>
      rw [greedyFrom, ← ih]
      congr 1
      omega
  | case3 offset b bytes h ih =>
      rw [greedyFrom, if_pos h, List.map_cons, ← ih]
      congr 2
      omega
  | case4 offset b bytes h ih =>
      rw [greedyFrom, if_neg h, ← ih]
      congr 1
      omega

/-- Every match lies within the bytes. -/
theorem mem_greedyFrom {offset skip : Nat} {bytes : Bytes} {p : Nat}
    (h : p ∈ greedyFrom pattern offset skip bytes) :
    offset ≤ p ∧ p + pattern.length ≤ offset + bytes.length := by
  fun_induction greedyFrom pattern offset skip bytes with
  | case1 => cases h
  | case2 offset b bytes skip ih =>
      rcases ih h with ⟨hlow, hhigh⟩
      rw [List.length_cons]
      omega
  | case3 offset b bytes hheads ih =>
      have hlength := length_le_of_heads hheads
      rcases List.mem_cons.1 h with rfl | h
      · exact ⟨Nat.le_refl p, by omega⟩
      · rcases ih h with ⟨hlow, hhigh⟩
        rw [List.length_cons]
        omega
  | case4 offset b bytes hheads ih =>
      rcases ih h with ⟨hlow, hhigh⟩
      rw [List.length_cons]
      omega

/-- Bytes that are passed begin no match. -/
theorem le_of_mem_greedyFrom {offset skip : Nat} {bytes : Bytes} {p : Nat}
    (h : p ∈ greedyFrom pattern offset skip bytes) : offset + skip ≤ p := by
  rw [greedyFrom_skip] at h
  exact (mem_greedyFrom h).1

/-- Every match begins no earlier than the one before it has ended. -/
theorem pairwise_greedyFrom (hne : pattern ≠ []) (offset skip : Nat) (bytes : Bytes) :
    (greedyFrom pattern offset skip bytes).Pairwise fun p q => p + pattern.length ≤ q := by
  have hpos : 0 < pattern.length := List.length_pos_iff.2 hne
  fun_induction greedyFrom pattern offset skip bytes with
  | case1 => exact List.Pairwise.nil
  | case2 offset b bytes skip ih => exact ih
  | case3 offset b bytes h ih =>
      refine List.pairwise_cons.2 ⟨?_, ih⟩
      intro q hq
      have hbehind := le_of_mem_greedyFrom hq
      omega
  | case4 offset b bytes h ih => exact ih

/-- Wherever the pattern meets the bytes, a match begins that overlaps with the place. -/
theorem exists_mem_greedyFrom {skip : Nat} {bytes : Bytes} {j : Nat} (hne : pattern ≠ [])
    (offset : Nat) (hskip : skip ≤ j) (h : heads pattern (bytes.drop j) = true) :
    ∃ p ∈ greedyFrom pattern offset skip bytes,
      p < offset + j + pattern.length ∧ offset + j < p + pattern.length := by
  have hpos : 0 < pattern.length := List.length_pos_iff.2 hne
  fun_induction greedyFrom pattern offset skip bytes generalizing j with
  | case1 =>
      rw [List.drop_nil] at h
      exact absurd (length_le_of_heads h) (Nat.not_le.2 hpos)
  | case2 offset b bytes skip ih =>
      cases j with
      | zero => omega
      | succ j =>
          rcases ih (by omega) h with ⟨p, hp, hbounds⟩
          exact ⟨p, hp, by omega⟩
  | case3 offset b bytes hheads ih =>
      by_cases hwithin : j < pattern.length
      · exact ⟨offset, List.mem_cons_self, by omega⟩
      · cases j with
        | zero => omega
        | succ j =>
            rcases ih (by omega) h with ⟨p, hp, hbounds⟩
            exact ⟨p, List.mem_cons_of_mem _ hp, by omega⟩
  | case4 offset b bytes hheads ih =>
      cases j with
      | zero => exact absurd h hheads
      | succ j =>
          rcases ih (Nat.zero_le j) h with ⟨p, hp, hbounds⟩
          exact ⟨p, hp, by omega⟩

/-- There are no more matches than bytes. -/
theorem length_greedyFrom_le (pattern : Pattern) (offset skip : Nat) (bytes : Bytes) :
    (greedyFrom pattern offset skip bytes).length ≤ bytes.length := by
  fun_induction greedyFrom pattern offset skip bytes with
  | case1 => exact Nat.le_refl 0
  | case2 offset b bytes skip ih => exact Nat.le_succ_of_le ih
  | case3 offset b bytes h ih => exact Nat.succ_le_succ ih
  | case4 offset b bytes h ih => exact Nat.le_succ_of_le ih

/-! ## Matches in a range -/

/-- The ranges of the matches in a range of a byte string, in the offsets of the
string.  Both ends of the range are moved back to the end of the string. -/
def matchesIn (pattern : Pattern) (bytes : Bytes) (range : Range) : List Range :=
  let start := min range.start bytes.length
  (pattern.greedy ((bytes.take range.stop).drop start)).map fun p =>
    ⟨start + p, start + p + pattern.length⟩

/-- There are no more matches in a range than bytes. -/
theorem length_matchesIn_le (pattern : Pattern) (bytes : Bytes) (range : Range) :
    (matchesIn pattern bytes range).length ≤ bytes.length := by
  rw [matchesIn, List.length_map, greedy]
  split_ifs with hempty
  · exact Nat.zero_le _
  · have hfound := length_greedyFrom_le pattern 0 0
      ((bytes.take range.stop).drop (min range.start bytes.length))
    rw [List.length_drop, List.length_take] at hfound
    omega

/-- A match in a range lies in it and in the byte string, and it is as long as the
pattern. -/
theorem mem_matchesIn {bytes : Bytes} {range r : Range}
    (h : r ∈ matchesIn pattern bytes range) :
    r.start < r.stop ∧ r.stop = r.start + pattern.length ∧ range.start ≤ r.start ∧
      r.stop ≤ range.stop ∧ r.stop ≤ bytes.length := by
  rw [matchesIn, List.mem_map] at h
  rcases h with ⟨p, hp, rfl⟩
  rw [greedy] at hp
  split_ifs at hp with hempty
  · cases hp
  · have hpos : 0 < pattern.length := by
      rw [List.isEmpty_iff] at hempty
      exact List.length_pos_iff.2 hempty
    rcases mem_greedyFrom hp with ⟨-, hhigh⟩
    rw [List.length_drop, List.length_take] at hhigh
    refine ⟨?_, rfl, ?_, ?_, ?_⟩
    all_goals simp only; omega

/-- The matches in a range are in order and do not overlap. -/
theorem pairwise_matchesIn (pattern : Pattern) (bytes : Bytes) (range : Range) :
    (matchesIn pattern bytes range).Pairwise fun r t => r.stop ≤ t.start := by
  rw [matchesIn, List.pairwise_map, greedy]
  split_ifs with hempty
  · exact List.Pairwise.nil
  · have hne : pattern ≠ [] := mt List.isEmpty_iff.2 hempty
    apply (pairwise_greedyFrom hne 0 0 _).imp
    intro p q hpq
    simp only
    omega

/-- Wherever in a range the pattern meets the bytes, a match overlaps with the place. -/
theorem exists_mem_matchesIn {bytes : Bytes} {range : Range} {j : Nat} (hne : pattern ≠ [])
    (hj : range.start ≤ j) (h : heads pattern ((bytes.take range.stop).drop j) = true) :
    ∃ r ∈ matchesIn pattern bytes range, r.start < j + pattern.length ∧ j < r.stop := by
  have hstart : min range.start bytes.length + (j - min range.start bytes.length) = j := by omega
  rw [← hstart, ← List.drop_drop] at h
  rcases exists_mem_greedyFrom hne 0 (Nat.zero_le _) h with ⟨p, hp, hbounds⟩
  refine ⟨⟨min range.start bytes.length + p, min range.start bytes.length + p + pattern.length⟩,
    ?_, ?_⟩
  · rw [matchesIn, greedy, if_neg (mt List.isEmpty_iff.1 hne)]
    exact List.mem_map_of_mem hp
  · simp only
    omega

/-- A pattern that repeats one byte meets the bytes that begin with as many of them. -/
theorem heads_replicate_iff {n : Nat} {byte : UInt8} {bytes : Bytes} :
    heads (List.replicate n (.literal byte)) bytes = true ↔ List.replicate n byte <+: bytes := by
  induction n generalizing bytes with
  | zero => simp [heads]
  | succ n ih =>
      cases bytes with
      | nil => simp [List.replicate_succ, heads]
      | cons b bytes =>
          rw [List.replicate_succ, List.replicate_succ, heads, Bool.and_eq_true, ih,
            List.cons_prefix_cons, Piece.matches, beq_iff_eq]

end Pattern

end HexEditor
