import HexEditor.Proofs.Edit.Patch

/-!
# The parts of an edited version

The pass that carries out edits from left to right can be halted at any offset that no edit goes
across.  What has been written by then is longer or shorter than what has been read by the growth
of the edits in front, and the rest of the pass works on the rest of the bytes.  So every part
that no edit touches is found again at the offset that it has been moved to, and so is every
replacement.

Main results:

- Theorem `LocalEdit.patch_append`: the pass is halted between two edits.
- Theorem `LocalEdit.read_kept`: where a part is found that no edit touches.
- Theorem `LocalEdit.read_replacement`: where a replacement is found.
-/

namespace HexEditor

namespace LocalEdit

variable {front back edits : List LocalEdit} {e : LocalEdit} {offset middle length : Nat}
  {bytes : Bytes}

/-! ## Halting the pass -/

/-- The edits in front of an offset follow one another up to it. -/
theorem Chained.upTo (h : Chained offset length (front ++ back)) (hle : offset ≤ middle)
    (hfront : ∀ e ∈ front, e.range.stop ≤ middle) : Chained offset middle front := by
  induction front generalizing offset with
  | nil => exact hle
  | cons e front ih =>
      rcases h with ⟨hoffset, hproper, hbehind⟩
      exact ⟨hoffset, hproper, ih hbehind (hfront e List.mem_cons_self)
        fun f hf => hfront f (List.mem_cons_of_mem _ hf)⟩

theorem Chained.exists_onward (h : Chained offset length (front ++ back)) :
    ∃ middle, Chained middle length back := by
  induction front generalizing offset with
  | nil => exact ⟨offset, h⟩
  | cons e front ih =>
      rcases h with ⟨-, -, hbehind⟩
      exact ih hbehind

/-- The edits behind an offset follow one another from it. -/
theorem Chained.onward (h : Chained offset length (front ++ back)) (hle : middle ≤ length)
    (hback : ∀ e ∈ back, middle ≤ e.range.start) : Chained middle length back := by
  rcases h.exists_onward with ⟨offset', hoffset'⟩
  rcases back with _ | ⟨e, back⟩
  · exact hle
  · rcases hoffset' with ⟨-, hproper, hbehind⟩
    exact ⟨hback e List.mem_cons_self, hproper, hbehind⟩

/-- The edits in front of another one end in front of it. -/
theorem Chained.stop_le_start (h : Chained offset length (front ++ e :: back)) :
    ∀ f ∈ front, f.range.stop ≤ e.range.start := by
  induction front generalizing offset with
  | nil => exact nofun
  | cons f front ih =>
      rcases h with ⟨-, -, hbehind⟩
      exact List.forall_mem_cons.2 ⟨(hbehind.bounds (by simp)).1, ih hbehind⟩

/-- The edits behind another one begin behind its start. -/
theorem Chained.start_le_start (h : Chained offset length (front ++ e :: back)) :
    ∀ f ∈ e :: back, e.range.start ≤ f.range.start := by
  rcases h.exists_onward with ⟨-, -, hproper, hbehind⟩
  exact List.forall_mem_cons.2
    ⟨Nat.le_refl _, fun f hf => hproper.trans (hbehind.bounds hf).1⟩

/-- The bytes in front of all edits are kept. -/
theorem patch_eq_take_append (h : Chained offset length edits) (hle : offset ≤ middle)
    (hedits : ∀ e ∈ edits, middle ≤ e.range.start) :
    patch offset bytes edits =
      bytes.take (middle - offset) ++ patch middle (bytes.drop (middle - offset)) edits := by
  rcases edits with _ | ⟨e, edits⟩
  · exact (List.take_append_drop _ bytes).symm
  · have hstart := hedits e List.mem_cons_self
    rcases h with ⟨-, hproper, -⟩
    have hkept : bytes.take (e.range.start - offset) = bytes.take (middle - offset) ++
        (bytes.drop (middle - offset)).take (e.range.start - middle) := by
      rw [← List.take_add]
      congr 1
      omega
    have hrest : (bytes.drop (middle - offset)).drop (e.range.stop - middle) =
        bytes.drop (e.range.stop - offset) := by
      rw [List.drop_drop]
      congr 1
      omega
    rw [patch, patch, hkept, hrest]
    simp only [List.append_assoc]

/-- The pass is halted at an offset that no edit goes across. -/
theorem patch_append (h : Chained offset length (front ++ back)) (hle : offset ≤ middle)
    (hfront : ∀ e ∈ front, e.range.stop ≤ middle) (hback : ∀ e ∈ back, middle ≤ e.range.start) :
    patch offset bytes (front ++ back) =
      patch offset (bytes.take (middle - offset)) front ++
        patch middle (bytes.drop (middle - offset)) back := by
  induction front generalizing offset bytes with
  | nil => exact patch_eq_take_append h hle hback
  | cons e front ih =>
      rcases h with ⟨hoffset, hproper, hbehind⟩
      have hstop := hfront e List.mem_cons_self
      have hhalted := @ih e.range.stop (bytes.drop (e.range.stop - offset)) hbehind hstop
        fun f hf => hfront f (List.mem_cons_of_mem _ hf)
      have hkept : (bytes.take (middle - offset)).take (e.range.start - offset) =
          bytes.take (e.range.start - offset) := by
        rw [List.take_take]
        congr 1
        omega
      have hbetween : (bytes.take (middle - offset)).drop (e.range.stop - offset) =
          (bytes.drop (e.range.stop - offset)).take (middle - e.range.stop) := by
        rw [List.drop_take]
        congr 1
        omega
      have hrest : (bytes.drop (e.range.stop - offset)).drop (middle - e.range.stop) =
          bytes.drop (middle - offset) := by
        rw [List.drop_drop]
        congr 1
        omega
      rw [List.cons_append, patch, patch, hhalted, hkept, hbetween, hrest]
      simp only [List.append_assoc]

/-- Behind the halt, the pass goes on with the rest of the bytes. -/
theorem drop_patch (h : Chained 0 bytes.length (front ++ back)) (hmiddle : middle ≤ bytes.length)
    (hlength : bytes.length ≤ lastOffset) (hfront : ∀ e ∈ front, e.range.stop ≤ middle)
    (hback : ∀ e ∈ back, middle ≤ e.range.start) {moved : Nat}
    (hmoved : (moved : Int) = middle + (front.map growth).sum) :
    (patch 0 bytes (front ++ back)).drop moved = patch middle (bytes.drop middle) back := by
  have hwritten := length_patch (h.upTo (Nat.zero_le _) hfront) (hmiddle.trans hlength)
    (show 0 + (bytes.take middle).length = middle by rw [List.length_take]; omega)
  have hlength' : (patch 0 (bytes.take middle) front).length = moved := by
    rw [List.length_take] at hwritten
    omega
  rw [patch_append h (Nat.zero_le _) hfront hback, Nat.sub_zero, ← hlength', List.drop_left]

/-! ## Finding the parts -/

/-- A part that no edit touches is found where the edits in front of it have moved it. -/
theorem read_kept (h : Chained 0 bytes.length (front ++ back)) {low high : Nat} (hle : low ≤ high)
    (hhigh : high ≤ bytes.length) (hlength : bytes.length ≤ lastOffset)
    (hfront : ∀ e ∈ front, e.range.stop ≤ low) (hback : ∀ e ∈ back, high ≤ e.range.start)
    {moved : Nat} (hmoved : (moved : Int) = low + (front.map growth).sum) :
    ((patch 0 bytes (front ++ back)).drop moved).take (high - low) =
      (bytes.drop low).take (high - low) := by
  have hlow : ∀ e ∈ back, low ≤ e.range.start := fun e he => hle.trans (hback e he)
  have hsize : ((bytes.drop low).take (high - low)).length = high - low := by
    rw [List.length_take, List.length_drop]
    omega
  rw [drop_patch h (hle.trans hhigh) hlength hfront hlow hmoved,
    patch_eq_take_append (h.onward (hle.trans hhigh) hlow) hle hback,
    List.take_append_of_le_length hsize.ge, List.take_take, Nat.min_self]

/-- A replacement is found where the edits in front of it have moved it. -/
theorem read_replacement (h : Chained 0 bytes.length (front ++ e :: back))
    (hlength : bytes.length ≤ lastOffset) {moved : Nat}
    (hmoved : (moved : Int) = e.range.start + (front.map growth).sum) :
    ((patch 0 bytes (front ++ e :: back)).drop moved).take e.replacement.length =
      e.replacement := by
  rcases h.bounds (show e ∈ front ++ e :: back by simp) with ⟨-, hproper, hstop⟩
  rw [drop_patch h (hproper.trans hstop) hlength h.stop_le_start h.start_le_start hmoved, patch,
    Nat.sub_self, List.take_zero, List.nil_append, List.take_left]

end LocalEdit

end HexEditor
