import HexEditor.Proofs.Edit.Patch
import Mathlib.Data.Nat.Count

/-!
# What removing leaves

Some operations add no bytes: each of their edits takes a range out.  What such edits leave is
said by the offsets they take.  The bytes at all other offsets are left, and a selection moves to
the left by as many offsets as are taken in front of the range of its own edit.

Main results:

- Definition `without`: the bytes at offsets without a property.
- Theorems `exists_of_lt_count` and `count_eq_add`: counting the offsets that are left.
- Definition `LocalEdit.Taken`: the offsets that edits take out.
- Theorems `LocalEdit.patch_removals` and `LocalEdit.settle_removals`: the bytes and the selections
  that are left.
- Theorem `Rope.Sound.exists_spliceAll_removals`: the version that is left, which is the old one if
  nothing is taken.
-/

namespace HexEditor

/-! ## Bytes left out -/

/-- The bytes at the offsets that do not have the property, in order.  The first of them all is at
the given offset. -/
def without (p : Nat → Prop) [DecidablePred p] (offset : Nat) (bytes : Bytes) : Bytes :=
  ((bytes.zipIdx offset).filter fun b => ¬ p b.2).map Prod.fst

section Without

variable {p q : Nat → Prop} [DecidablePred p] [DecidablePred q] {offset low high n : Nat}
  {bytes : Bytes}

theorem without_append (p : Nat → Prop) [DecidablePred p] (offset : Nat) (xs ys : Bytes) :
    without p offset (xs ++ ys) = without p offset xs ++ without p (offset + xs.length) ys := by
  rw [without, List.zipIdx_append, List.filter_append, List.map_append]
  rfl

theorem without_congr (h : ∀ k, offset ≤ k → k < offset + bytes.length → (p k ↔ q k)) :
    without p offset bytes = without q offset bytes := by
  rw [without, without]
  congr 1
  apply List.filter_congr
  intro b hb
  rcases List.mem_zipIdx hb with ⟨hlow, hhigh, -⟩
  exact decide_eq_decide.2 (not_congr (h b.2 hlow hhigh))

theorem without_eq_self (h : ∀ k, offset ≤ k → k < offset + bytes.length → ¬ p k) :
    without p offset bytes = bytes := by
  have hall : ((bytes.zipIdx offset).filter fun b => ¬ p b.2) = bytes.zipIdx offset := by
    rw [List.filter_eq_self]
    intro b hb
    rcases List.mem_zipIdx hb with ⟨hlow, hhigh, -⟩
    exact decide_eq_true (h b.2 hlow hhigh)
  rw [without, hall, List.zipIdx_map_fst]

theorem without_eq_nil (h : ∀ k, offset ≤ k → k < offset + bytes.length → p k) :
    without p offset bytes = [] := by
  rw [without, List.map_eq_nil_iff, List.filter_eq_nil_iff]
  intro b hb
  rcases List.mem_zipIdx hb with ⟨hlow, hhigh, -⟩
  simpa using h b.2 hlow hhigh

/-- The bytes are cut at an offset. -/
theorem without_cut (p : Nat → Prop) [DecidablePred p] (hlow : offset ≤ low)
    (hend : low ≤ offset + bytes.length) :
    without p offset bytes =
      without p offset (bytes.take (low - offset)) ++
        without p low (bytes.drop (low - offset)) := by
  have hfront : offset + (bytes.take (low - offset)).length = low := by
    rw [List.length_take]
    omega
  have hparts := without_append p offset (bytes.take (low - offset)) (bytes.drop (low - offset))
  rwa [List.take_append_drop, hfront] at hparts

theorem length_without (p : Nat → Prop) [DecidablePred p] (bytes : Bytes) :
    (without p 0 bytes).length = bytes.length - Nat.count p bytes.length := by
  induction bytes using List.reverseRecOn with
  | nil => rfl
  | append_singleton bytes byte ih =>
      have hle := Nat.count_le (p := p) (n := bytes.length)
      have honly : ∀ k, 0 + bytes.length ≤ k → k < 0 + bytes.length + [byte].length →
          k = bytes.length := by
        intro k hlow hhigh
        rw [List.length_singleton] at hhigh
        omega
      rw [without_append, List.length_append, ih, List.length_append, List.length_singleton,
        Nat.count_succ]
      by_cases hlast : p bytes.length
      · have hnone : without p (0 + bytes.length) [byte] = [] :=
          without_eq_nil fun k hlow hhigh => honly k hlow hhigh ▸ hlast
        rw [hnone, if_pos hlast, List.length_nil]
        omega
      · have hkept : without p (0 + bytes.length) [byte] = [byte] :=
          without_eq_self fun k hlow hhigh => honly k hlow hhigh ▸ hlast
        rw [hkept, if_neg hlast, List.length_singleton]
        omega

end Without

/-! ## Counting -/

section Count

variable {p q : Nat → Prop} [DecidablePred p] [DecidablePred q] {low high n : Nat}

theorem count_or (h : ∀ k, p k → ¬ q k) (n : Nat) :
    Nat.count (fun k => p k ∨ q k) n = Nat.count p n + Nat.count q n := by
  induction n with
  | zero => simp
  | succ n ih =>
      by_cases hp : p n
      · simp only [Nat.count_succ, ih, hp, h n hp, true_or, if_true, if_false]
        omega
      · simp only [Nat.count_succ, ih, hp, false_or, if_false]
        omega

theorem count_between (low high n : Nat) :
    Nat.count (fun k => low ≤ k ∧ k < high) n = min n high - low := by
  induction n with
  | zero => simp
  | succ n ih =>
      rw [Nat.count_succ, ih]
      split_ifs <;> omega

theorem count_congr (h : ∀ k < n, p k ↔ q k) : Nat.count p n = Nat.count q n :=
  Nat.le_antisymm (Nat.count_mono_left fun k hk => (h k hk).1)
    (Nat.count_mono_left fun k hk => (h k hk).2)

/-- Every offset either has the property or is left. -/
theorem count_add_count_not (p : Nat → Prop) [DecidablePred p] (n : Nat) :
    Nat.count p n + Nat.count (fun k => ¬ p k) n = n := by
  have hsplit := count_or (p := p) (q := fun k => ¬ p k) (fun _ hk => not_not_intro hk) n
  rw [← hsplit, Nat.count_iff_forall]
  exact fun k _ => em (p k)

/-- What is left in front of an offset grows with the offset. -/
theorem sub_count_mono (p : Nat → Prop) [DecidablePred p] (h : low ≤ high) :
    low - Nat.count p low ≤ high - Nat.count p high := by
  have hmono := Nat.count_monotone (fun k => ¬ p k) h
  have hlow := count_add_count_not p low
  have hhigh := count_add_count_not p high
  omega

/-- Where the property holds throughout, all offsets are counted. -/
theorem count_eq_add (hle : low ≤ high) (h : ∀ k, low ≤ k → k < high → p k) :
    Nat.count p high = Nat.count p low + (high - low) := by
  rcases Nat.exists_eq_add_of_le hle with ⟨k, rfl⟩
  rw [Nat.count_add, Nat.add_sub_cancel_left, Nat.add_left_cancel_iff, Nat.count_iff_forall]
  intro i hi
  exact h (low + i) (by omega) (by omega)

/-- Each number below the count is reached in front of an offset that is counted. -/
theorem exists_of_lt_count {j : Nat} (h : j < Nat.count p n) :
    ∃ k < n, p k ∧ Nat.count p k = j := by
  induction n with
  | zero => simp at h
  | succ n ih =>
      rw [Nat.count_succ] at h
      by_cases hlt : j < Nat.count p n
      · rcases ih hlt with ⟨k, hk, hcounted⟩
        exact ⟨k, by omega, hcounted⟩
      · split_ifs at h with hlast
        · exact ⟨n, Nat.lt_succ_self n, hlast, by omega⟩
        · omega

end Count

/-! ## Removals -/

namespace LocalEdit

variable {edits : List LocalEdit} {e : LocalEdit} {offset length : Nat} {bytes : Bytes}

/-- The offset is in the range of one of the edits. -/
def Taken (edits : List LocalEdit) (offset : Nat) : Prop :=
  ∃ e ∈ edits, e.range.start ≤ offset ∧ offset < e.range.stop

instance (edits : List LocalEdit) : DecidablePred (Taken edits) := fun offset =>
  inferInstanceAs (Decidable (∃ e ∈ edits, e.range.start ≤ offset ∧ offset < e.range.stop))

theorem taken_cons :
    Taken (e :: edits) offset ↔
      (e.range.start ≤ offset ∧ offset < e.range.stop) ∨ Taken edits offset := by
  rw [Taken, List.exists_mem_cons_iff]
  rfl

/-- In front of all edits nothing is taken. -/
theorem Chained.le_of_taken {k : Nat} (h : Chained offset length edits) (hk : Taken edits k) :
    offset ≤ k := by
  rcases hk with ⟨e, he, hlow, -⟩
  exact (h.bounds he).1.trans hlow

/-- Edits that add nothing leave the bytes that they do not take.  The induction cuts the bytes at
both ends of the first range. -/
theorem patch_removals (h : Chained offset length edits)
    (hremoves : ∀ e ∈ edits, e.replacement = []) (hbytes : offset + bytes.length = length) :
    patch offset bytes edits = without (Taken edits) offset bytes := by
  induction edits generalizing offset bytes with
  | nil =>
      symm
      apply without_eq_self
      rintro k - - ⟨e, he, -⟩
      cases he
  | cons e edits ih =>
      rcases h with ⟨hfront, hproper, hbehind⟩
      have hstop := hbehind.offset_le_length
      have hback : (bytes.drop (e.range.start - offset)).drop (e.range.stop - e.range.start) =
          bytes.drop (e.range.stop - offset) := by
        rw [List.drop_drop]
        congr 1
        omega
      have hkept : without (Taken (e :: edits)) offset (bytes.take (e.range.start - offset)) =
          bytes.take (e.range.start - offset) := by
        apply without_eq_self
        intro k _ hk htaken
        rw [List.length_take] at hk
        rcases taken_cons.1 htaken with hown | hother
        · omega
        · have hle := hbehind.le_of_taken hother
          omega
      have htaken : without (Taken (e :: edits)) e.range.start
          ((bytes.drop (e.range.start - offset)).take (e.range.stop - e.range.start)) = [] := by
        apply without_eq_nil
        intro k hlow hk
        rw [List.length_take] at hk
        exact taken_cons.2 (.inl ⟨hlow, by omega⟩)
      have hrest : without (Taken (e :: edits)) e.range.stop
          (bytes.drop (e.range.stop - offset)) =
            without (Taken edits) e.range.stop (bytes.drop (e.range.stop - offset)) := by
        apply without_congr
        intro k hlow _
        rw [taken_cons, or_iff_right]
        omega
      have hafter := @ih _ (bytes.drop (e.range.stop - offset)) hbehind
        (fun f hf => hremoves f (List.mem_cons_of_mem _ hf)) (by rw [List.length_drop]; omega)
      rw [without_cut _ hfront (by omega), hkept, without_cut _ hproper
          (by rw [List.length_drop]; omega), htaken, hback, hrest, ← hafter, patch,
        hremoves e List.mem_cons_self, List.append_nil, List.nil_append]

/-- Edits that add nothing move what they leave to the left, by what is taken in front of them.  The
induction carries how much has been taken so far. -/
theorem settle_removals (h : Chained offset length edits)
    (hremoves : ∀ e ∈ edits, e.replacement = []) (hlength : length ≤ lastOffset) (taken : Nat) :
    settle (-(taken : Int)) edits = edits.map fun e =>
      e.after.shifted (-((taken + Nat.count (Taken edits) e.range.start : Nat) : Int)) := by
  induction edits generalizing offset taken with
  | nil => rfl
  | cons e edits ih =>
      rcases h with ⟨hfront, hproper, hbehind⟩
      have hnone : Nat.count (Taken (e :: edits)) e.range.start = 0 := by
        rw [Nat.count_iff_forall_not]
        intro k hk htaken
        rcases taken_cons.1 htaken with hown | hother
        · omega
        · have hle := hbehind.le_of_taken hother
          omega
      -- behind its end the first range counts with all its offsets
      have hcount : ∀ f ∈ edits, Nat.count (Taken (e :: edits)) f.range.start =
          e.range.stop - e.range.start + Nat.count (Taken edits) f.range.start := by
        intro f hf
        have hle := (hbehind.bounds hf).1
        have hsplit := count_or (p := fun k => e.range.start ≤ k ∧ k < e.range.stop)
          (q := Taken edits) (fun k hk hother => by
            have hle := hbehind.le_of_taken hother
            omega) f.range.start
        rw [count_between, Nat.min_eq_right hle] at hsplit
        rw [← hsplit]
        exact count_congr fun k _ => taken_cons
      have hgrowth : -(taken : Int) + e.growth =
          -((taken + (e.range.stop - e.range.start) : Nat) : Int) := by
        rw [growth_eq hproper hbehind.offset_le_length hlength, hremoves e List.mem_cons_self,
          List.length_nil]
        omega
      rw [settle, hgrowth, ih hbehind (fun f hf => hremoves f (List.mem_cons_of_mem _ hf)),
        List.map_cons, hnone]
      congr 1
      apply List.map_congr_left
      intro f hf
      rw [hcount f hf, Nat.add_assoc]

end LocalEdit

namespace Rope

variable {rope : Rope} {edits : List LocalEdit}

/-- Edits that replace nothing by nothing are passed over. -/
theorem spliceAll_idle (h : ∀ e ∈ edits, e.isIdle = true) : rope.spliceAll edits = .ok rope := by
  induction edits with
  | nil => rfl
  | cons e edits ih =>
      rw [spliceAll_cons, ih fun f hf => h f (List.mem_cons_of_mem _ hf)]
      exact if_pos (h e List.mem_cons_self)

/-- Edits that add nothing can be carried out and leave the bytes that they do not take.  If they
take nothing, the version stays. -/
theorem Sound.exists_spliceAll_removals (h : rope.Sound)
    (hchained : LocalEdit.Chained 0 rope.length edits)
    (hremoves : ∀ e ∈ edits, e.replacement = []) :
    ∃ next, rope.spliceAll edits = .ok next ∧ next.Sound ∧
      next.toBytes = without (LocalEdit.Taken edits) 0 rope.toBytes ∧
      ((∀ k, ¬ LocalEdit.Taken edits k) → next = rope) := by
  rcases h.exists_spliceAll_eq_patch hchained with ⟨next, hnext, hsound, hbytes⟩
  rw [List.take_zero, List.drop_zero, List.nil_append,
    LocalEdit.patch_removals hchained hremoves (by rw [h.length_eq, Nat.zero_add])] at hbytes
  refine ⟨next, hnext, hsound, hbytes, fun hnone => ?_⟩
  have hidle : ∀ e ∈ edits, e.isIdle = true := by
    intro e he
    have hempty : e.range.stop ≤ e.range.start := by
      by_contra hlt
      exact hnone e.range.start ⟨e, he, Nat.le_refl _, Nat.lt_of_not_le hlt⟩
    simp [LocalEdit.isIdle, Range.isEmpty, hempty, hremoves e he]
  rw [spliceAll_idle hidle] at hnext
  cases hnext
  rfl

end Rope

end HexEditor
