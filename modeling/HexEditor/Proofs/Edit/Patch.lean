import HexEditor.Proofs.Edit.InOrder
import HexEditor.Proofs.Selection.Normal

/-!
# What edits in order leave

Edits are carried out from the last to the first.  When they are in order and do not overlap,
the same bytes come out of one pass from left to right: what lies in front of an edit is kept,
the replacement takes the place of the range, and the pass goes on behind the range.  The
selections come out of a pass of their own, which carries how far everything has moved so far.

Main results:

- Definition `LocalEdit.Chained`: each edit begins no earlier than the one before it ends.
- Definitions `LocalEdit.patch` and `LocalEdit.settle`: the bytes and the selections that the
  passes leave.
- Definition `LocalEdit.Spaced` and theorem `LocalEdit.Spaced.valid`: when the selections come
  out in order.
- Theorem `Rope.Sound.exists_applyEdits_eq_patch`: an edit at every selection leads to these
  bytes and selections.
-/

namespace HexEditor

/-! ## Selections that are moved -/

namespace Selection

variable {s : Selection} {k : Int} {low high : Nat}

theorem shift_eq (offset : Nat) (hlow : 0 ≤ offset + k) (hhigh : offset + k ≤ lastOffset) :
    (shift k offset : Int) = offset + k := by
  rw [shift]
  omega

theorem first_shifted (hlow : 0 ≤ s.first + k) (hhigh : s.last + k ≤ lastOffset) :
    ((s.shifted k).first : Int) = s.first + k := by
  simp only [first, last] at hlow hhigh ⊢
  have hanchor := shift_eq (k := k) s.anchor (by omega) (by omega)
  have hcursor := shift_eq (k := k) s.cursor (by omega) (by omega)
  simp only [shifted]
  omega

theorem last_shifted (hlow : 0 ≤ s.first + k) (hhigh : s.last + k ≤ lastOffset) :
    ((s.shifted k).last : Int) = s.last + k := by
  simp only [first, last] at hlow hhigh ⊢
  have hanchor := shift_eq (k := k) s.anchor (by omega) (by omega)
  have hcursor := shift_eq (k := k) s.cursor (by omega) (by omega)
  simp only [shifted]
  omega

/-- Moving by nothing leaves a selection. -/
theorem shifted_zero (h : s.last ≤ lastOffset) : s.shifted 0 = s := by
  rcases last_le_iff.1 h with ⟨hanchor, hcursor⟩
  simp only [shifted, shift, Int.add_zero, Int.toNat_natCast, Nat.min_eq_left hanchor,
    Nat.min_eq_left hcursor]

end Selection

/-- The size of a range in a file whose length is a word. -/
theorem Range.size_eq {r : Range} {length : Nat} (hproper : r.start ≤ r.stop)
    (hstop : r.stop ≤ length) (hlength : length ≤ lastOffset) : r.size = r.stop - r.start := by
  have hwords : length < offsetCount := Nat.lt_of_le_of_lt hlength (by decide)
  rw [size, Nat.add_comm, Nat.add_sub_assoc hproper, wrap, Nat.add_mod_left]
  apply Nat.mod_eq_of_lt
  omega

namespace LocalEdit

/-! ## From left to right -/

/-- The edits lie between the offset and the length, and each of them begins no earlier than
the one before it ends. -/
def Chained (offset length : Nat) : List LocalEdit → Prop
  | [] => offset ≤ length
  | e :: edits =>
    offset ≤ e.range.start ∧ e.range.start ≤ e.range.stop ∧
      Chained e.range.stop length edits

/-- The bytes that edits leave of those from the given offset on. -/
def patch (offset : Nat) (bytes : Bytes) : List LocalEdit → Bytes
  | [] => bytes
  | e :: edits =>
    bytes.take (e.range.start - offset) ++ e.replacement ++
      patch e.range.stop (bytes.drop (e.range.stop - offset)) edits

/-- The selections that edits leave when everything has been moved so far already. -/
def settle (moved : Int) : List LocalEdit → List Selection
  | [] => []
  | e :: edits => e.after.shifted moved :: settle (moved + e.growth) edits

/-- The selections that the edits leave come out in order: the first of them lies at `low` or
behind it, each other one behind the one before it, and none goes beyond the length. -/
def Spaced (length : Nat) : (low moved : Int) → List LocalEdit → Prop
  | _, _, [] => True
  | low, moved, e :: edits =>
    low ≤ e.after.first + moved ∧ e.after.last + moved ≤ length ∧
      Spaced length (e.after.last + moved + 1) (moved + e.growth) edits

theorem Chained.offset_le_length {offset length : Nat} {edits : List LocalEdit}
    (h : Chained offset length edits) : offset ≤ length := by
  induction edits generalizing offset with
  | nil => exact h
  | cons e edits ih =>
      rcases h with ⟨hfront, hproper, hbehind⟩
      have hstop := ih hbehind
      omega

/-- The range of each edit lies between the offset and the length. -/
theorem Chained.bounds {offset length : Nat} {edits : List LocalEdit} {e : LocalEdit}
    (h : Chained offset length edits) (he : e ∈ edits) :
    offset ≤ e.range.start ∧ e.range.start ≤ e.range.stop ∧ e.range.stop ≤ length := by
  induction edits generalizing offset with
  | nil => cases he
  | cons f edits ih =>
      rcases h with ⟨hfront, hproper, hbehind⟩
      have hstop := hbehind.offset_le_length
      rcases List.mem_cons.1 he with rfl | he
      · exact ⟨hfront, hproper, hstop⟩
      · have hbounds := ih hbehind he
        omega

/-- Edits in order follow one another from the start. -/
theorem InOrder.chained {edits : List LocalEdit} {length : Nat} (h : InOrder edits length) :
    Chained 0 length edits := by
  have hfrom : ∀ offset ≤ length, (∀ e ∈ edits, offset ≤ e.range.start) →
      Chained offset length edits := by
    induction edits with
    | nil => exact fun _ hoffset _ => hoffset
    | cons e edits ih =>
        intro offset _ hfront
        rcases List.pairwise_cons.1 h.ordered with ⟨hbehind, hordered⟩
        rcases h.within e List.mem_cons_self with ⟨hproper, hstop⟩
        have hrest : InOrder edits length :=
          ⟨hordered, fun f hf => h.within f (List.mem_cons_of_mem _ hf)⟩
        exact ⟨hfront e List.mem_cons_self, hproper, ih hrest _ hstop hbehind⟩
  exact hfrom 0 (Nat.zero_le _) fun _ _ => Nat.zero_le _

/-- Edits of the bytes below selections in order are in order. -/
theorem chained_covered {edit : Selection → LocalEdit} {selections : List Selection} {length : Nat}
    (hrange : ∀ s, (edit s).range = s.covered length)
    (hseparate : selections.Pairwise fun s t => s.last < t.first) :
    Chained 0 length (selections.map edit) := by
  apply InOrder.chained
  constructor
  · rw [List.pairwise_map]
    apply hseparate.imp
    intro s t hst
    rw [hrange, hrange]
    exact Selection.stop_covered_le_start hst
  · intro e he
    rcases List.mem_map.1 he with ⟨s, -, rfl⟩
    rw [hrange]
    exact ⟨s.start_covered_le_stop _, s.stop_covered_le _⟩

/-- By how much an edit moves what comes behind it, if its range lies in a file whose length
is a word. -/
theorem growth_eq {e : LocalEdit} {length : Nat} (hproper : e.range.start ≤ e.range.stop)
    (hstop : e.range.stop ≤ length) (hlength : length ≤ lastOffset) :
    e.growth = e.replacement.length - (e.range.stop - e.range.start) := by
  rw [growth, Range.size_eq hproper hstop hlength, Int.natCast_sub hproper]

/-- An insertion at a point moves what comes behind it by its bytes. -/
theorem growth_point (point : Nat) (bytes : Bytes) (after : Selection) :
    (mk ⟨point, point⟩ bytes after).growth = bytes.length := by
  have hsize : (Range.mk point point).size = 0 := by
    rw [Range.size, Nat.add_sub_cancel_left, wrap, Nat.mod_self]
  rw [growth, hsize]
  exact Int.sub_zero _

/-- The bytes grow by what the edits add and remove. -/
theorem length_patch {offset length : Nat} {bytes : Bytes} {edits : List LocalEdit}
    (h : Chained offset length edits) (hlength : length ≤ lastOffset)
    (hbytes : offset + bytes.length = length) :
    ((patch offset bytes edits).length : Int) = bytes.length + (edits.map growth).sum := by
  induction edits generalizing offset bytes with
  | nil => rw [patch, List.map_nil, List.sum_nil, Int.add_zero]
  | cons e edits ih =>
      rcases h with ⟨hfront, hproper, hbehind⟩
      have hstop := hbehind.offset_le_length
      have hgrowth := growth_eq hproper hstop hlength
      have hrest := @ih e.range.stop (bytes.drop (e.range.stop - offset)) hbehind
        (by rw [List.length_drop]; omega)
      rw [List.length_drop] at hrest
      rw [patch, List.length_append, List.length_append, List.length_take, List.map_cons,
        List.sum_cons]
      omega

/-- Edits in order remove no more than there is behind their offset. -/
theorem Chained.le_sum_growth {offset length : Nat} {edits : List LocalEdit}
    (h : Chained offset length edits) (hlength : length ≤ lastOffset) :
    (offset : Int) ≤ length + (edits.map growth).sum := by
  have hle := h.offset_le_length
  have hbytes : offset + (List.replicate (length - offset) (0 : UInt8)).length = length := by
    rw [List.length_replicate]
    omega
  have hgrown := length_patch h hlength hbytes
  rw [List.length_replicate] at hgrown
  omega

@[simp]
theorem length_settle (moved : Int) (edits : List LocalEdit) :
    (settle moved edits).length = edits.length := by
  induction edits generalizing moved with
  | nil => rfl
  | cons e edits ih => simp only [settle, List.length_cons, ih]

/-- What does not depend on the index of its selection. -/
theorem map_zipIdx_eq_map {α : Type} (f : Selection → α) (selections : List Selection) :
    selections.zipIdx.map (fun p => f p.1) = selections.map f := by
  change selections.zipIdx.map (f ∘ Prod.fst) = _
  rw [← List.map_map, List.zipIdx_map_fst]

/-- The selections that remain are those of the pass that sets out from the first edit. -/
theorem remaining_eq_settle (edits : List LocalEdit) : remaining edits = settle 0 edits := by
  have hfold : ∀ (edits : List LocalEdit) (moved : List Selection × Int),
      (edits.foldl moveNext moved).1.reverse = moved.1.reverse ++ settle moved.2 edits := by
    intro edits
    induction edits with
    | nil => exact fun moved => (List.append_nil _).symm
    | cons e edits ih =>
        intro moved
        rw [List.foldl_cons, ih]
        simp only [moveNext, settle, List.reverse_cons, List.append_assoc,
          List.singleton_append]
  exact hfold edits ([], 0)

/-- Selections that come out in order are valid.  The induction carries that all of them lie at
the lower bound or behind it. -/
theorem Spaced.valid {length main : Nat} {edits : List LocalEdit} (h : Spaced length 0 0 edits)
    (hlength : length ≤ lastOffset) (hmain : main < edits.length) :
    SelectionSet.Valid ⟨settle 0 edits, main⟩ length := by
  have hinduct : ∀ (edits : List LocalEdit) (low moved : Int), 0 ≤ low →
      Spaced length low moved edits →
      (settle moved edits).Pairwise (fun s t => s.last < t.first) ∧
        ∀ s ∈ settle moved edits, low ≤ s.first ∧ s.last ≤ length := by
    intro edits
    induction edits with
    | nil => exact fun _ _ _ _ => ⟨.nil, fun _ hs => absurd hs List.not_mem_nil⟩
    | cons e edits ih =>
        rintro low moved hlow ⟨hfront, hend, hrest⟩
        have hfirst := Selection.first_shifted (s := e.after) (k := moved) (by omega) (by omega)
        have hlast := Selection.last_shifted (s := e.after) (k := moved) (by omega) (by omega)
        have hordered := e.after.first_le_last
        rcases ih _ _ (by omega) hrest with ⟨hseparate, hbounds⟩
        refine ⟨List.pairwise_cons.2 ⟨?_, hseparate⟩, ?_⟩
        · intro t ht
          have hbehind := (hbounds t ht).1
          omega
        · intro t ht
          rcases List.mem_cons.1 ht with rfl | ht
          · omega
          · have hbehind := hbounds t ht
            omega
  rcases hinduct edits 0 0 (Int.le_refl _) h with ⟨hseparate, hbounds⟩
  refine ⟨hseparate, ?_, fun s hs => (hbounds s hs).2⟩
  rw [SelectionSet.size, length_settle]
  exact hmain

end LocalEdit

namespace Rope

variable {rope : Rope} {set : SelectionSet}

/-- Splicing from the last edit to the first leaves what the pass from left to right leaves.
The induction carries the offset that the edits begin behind. -/
theorem Sound.exists_spliceAll_eq_patch (h : rope.Sound) {offset : Nat}
    {edits : List LocalEdit} (hedits : LocalEdit.Chained offset rope.length edits) :
    ∃ next, rope.spliceAll edits = .ok next ∧ next.Sound ∧
      next.toBytes =
        rope.toBytes.take offset ++
          LocalEdit.patch offset (rope.toBytes.drop offset) edits := by
  induction edits generalizing offset with
  | nil => exact ⟨rope, rfl, h, (List.take_append_drop offset rope.toBytes).symm⟩
  | cons e edits ih =>
      rcases hedits with ⟨hfront, hproper, hbehind⟩
      rcases ih hbehind with ⟨rest, hrest, hsound, hbytes⟩
      have hstop := hbehind.offset_le_length
      rw [h.length_eq] at hstop
      have hkept : (rope.toBytes.take e.range.stop).length = e.range.stop := by
        rw [List.length_take]
        omega
      have hholds : rest.Holds e.range := by
        refine ⟨hproper, ?_⟩
        rw [hsound.length_eq, hbytes, List.length_append, hkept]
        exact Nat.le_add_right _ _
      rcases hsound.splice hholds e.replacement with ⟨next, hnext, hsound', hspliced⟩
      refine ⟨next, spliceAll_cons_of_splice hrest hholds hnext, hsound', ?_⟩
      have hfrontBytes : rest.toBytes.take e.range.start = rope.toBytes.take offset ++
          (rope.toBytes.drop offset).take (e.range.start - offset) := by
        rw [hbytes, List.take_append_of_le_length (by omega), List.take_take,
          Nat.min_eq_left hproper, ← List.take_add, Nat.add_sub_cancel' hfront]
      have hbehindBytes : rest.toBytes.drop e.range.stop =
          LocalEdit.patch e.range.stop (rope.toBytes.drop e.range.stop) edits := by
        rw [hbytes, List.drop_append_of_le_length (by omega),
          List.drop_of_length_le (by omega), List.nil_append]
      rw [hspliced, hfrontBytes, hbehindBytes, LocalEdit.patch, List.drop_drop,
        Nat.add_sub_cancel' (hfront.trans hproper)]
      simp only [List.append_assoc]

/-- An edit at every selection leads to the bytes and the selections of the passes from left
to right, provided the edits are in order and the selections come out in order. -/
theorem Sound.exists_applyEdits_eq_patch (h : rope.Sound) (hmain : set.main < set.size)
    (edit : Selection → Nat → LocalEdit) {edits : List LocalEdit}
    (hedits : set.selections.zipIdx.map (fun p => edit p.1 p.2) = edits)
    (hchained : LocalEdit.Chained 0 rope.length edits)
    (hspaced : LocalEdit.Spaced (LocalEdit.patch 0 rope.toBytes edits).length 0 0 edits)
    (hlength : (LocalEdit.patch 0 rope.toBytes edits).length ≤ lastOffset) :
    ∃ edited, rope.applyEdits set edit = .ok edited ∧ edited.buffer.Sound ∧
      edited.buffer.toBytes = LocalEdit.patch 0 rope.toBytes edits ∧
      edited.selections = ⟨LocalEdit.settle 0 edits, set.main⟩ ∧
      edited.selections.Valid edited.buffer.length := by
  rcases h.exists_spliceAll_eq_patch hchained with ⟨next, hnext, hsound, hbytes⟩
  have hvalid : SelectionSet.Valid ⟨LocalEdit.settle 0 edits, set.main⟩
      (LocalEdit.patch 0 rope.toBytes edits).length := by
    apply hspaced.valid hlength
    rw [← hedits, List.length_map, List.length_zipIdx]
    exact hmain
  rw [List.take_zero, List.drop_zero, List.nil_append] at hbytes
  rw [← hbytes, ← hsound.length_eq] at hvalid
  have hnormal := hvalid.ofList_eq
  dsimp only at hnormal
  have hedited : rope.applyEdits set edit = (rope.spliceAll edits).map fun next =>
      ⟨next, (SelectionSet.ofList (LocalEdit.remaining edits) set.main).clamped next.length⟩ := by
    rw [← hedits]
    exact applyEdits_eq rope set edit
  rw [hedited, hnext, LocalEdit.remaining_eq_settle]
  refine ⟨_, rfl, hsound, hbytes, ?_⟩
  dsimp only
  rw [hnormal, hvalid.clamped_eq]
  exact ⟨rfl, hvalid⟩

end Rope

end HexEditor
