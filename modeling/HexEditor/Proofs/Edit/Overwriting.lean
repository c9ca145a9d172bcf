import HexEditor.Proofs.Edit.Restore
import HexEditor.Proofs.Rope.Fresh
import HexEditor.Proofs.Selection.Components

/-!
# What overwriting leaves

Overwriting puts one byte in the place of every byte below the selections.  No edit adds or removes
anything, so the selections stay, and all other bytes stay at their offsets.  Overwriting once more
leaves nothing of the byte that was put in before.

The offset behind the last byte can be selected, but there is nothing to overwrite.  If no selection
covers a byte, no edit does anything, and the version stays the same.

Main results:

- Definition `overlay` and theorem `overlay_overlay`: bytes with some of them replaced by one.
- Definition `Selection.overwriting`: the edit at one selection.
- Theorems `LocalEdit.patch_overwritings` and `LocalEdit.settle_overwritings`: the bytes and the
  selections that the edits leave.
- Theorem `Rope.Sound.exists_overwrite_eq`: what overwriting leaves, and when it makes a new
  version.
-/

namespace HexEditor

/-! ## Bytes replaced by one -/

/-- The bytes with the given one in place of all that the selections cover.  The first of them all
is at the given offset. -/
def overlay (selections : List Selection) (byte : UInt8) (offset : Nat) (bytes : Bytes) : Bytes :=
  bytes.mapIdx fun k old => if Covered selections (offset + k) then byte else old

section Overlay

variable {selections selections' : List Selection} {byte : UInt8} {offset low : Nat}
  {bytes : Bytes}

@[simp]
theorem length_overlay : (overlay selections byte offset bytes).length = bytes.length := by
  simp [overlay]

theorem overlay_append (selections : List Selection) (byte : UInt8) (offset : Nat)
    (xs ys : Bytes) :
    overlay selections byte offset (xs ++ ys) =
      overlay selections byte offset xs ++ overlay selections byte (offset + xs.length) ys := by
  simp [overlay, List.mapIdx_append, Nat.add_assoc, Nat.add_comm xs.length]

theorem overlay_congr (h : ∀ k, offset ≤ k → k < offset + bytes.length →
    (Covered selections k ↔ Covered selections' k)) :
    overlay selections byte offset bytes = overlay selections' byte offset bytes := by
  unfold overlay
  apply List.ext_getElem
  · simp
  · intro k hk _
    rw [List.length_mapIdx] at hk
    simp [h (offset + k) (by omega) (by omega)]

theorem overlay_eq_self (h : ∀ k, offset ≤ k → k < offset + bytes.length →
    ¬ Covered selections k) : overlay selections byte offset bytes = bytes := by
  unfold overlay
  apply List.ext_getElem
  · simp
  · intro k _ hk
    simp [h (offset + k) (by omega) (by omega)]

theorem overlay_eq_replicate (h : ∀ k, offset ≤ k → k < offset + bytes.length →
    Covered selections k) :
    overlay selections byte offset bytes = List.replicate bytes.length byte := by
  unfold overlay
  apply List.ext_getElem
  · simp
  · intro k hk _
    rw [List.length_mapIdx] at hk
    simp [h (offset + k) (by omega) (by omega)]

/-- The bytes are cut at an offset. -/
theorem overlay_cut (selections : List Selection) (byte : UInt8) (hlow : offset ≤ low)
    (hend : low ≤ offset + bytes.length) :
    overlay selections byte offset bytes =
      overlay selections byte offset (bytes.take (low - offset)) ++
        overlay selections byte low (bytes.drop (low - offset)) := by
  have hfront : offset + (bytes.take (low - offset)).length = low := by
    rw [List.length_take]
    omega
  have hparts := overlay_append selections byte offset (bytes.take (low - offset))
    (bytes.drop (low - offset))
  rwa [List.take_append_drop, hfront] at hparts

/-- The first one of selections in order cuts the bytes into those in front of it, which stay, its
own, which are replaced, and those behind it, which are left to the others. -/
theorem overlay_eq_append {s : Selection} {stop : Nat}
    (hnext : ∀ t ∈ selections, s.last < t.first) (hfront : offset ≤ s.first)
    (hproper : s.first ≤ stop) (hstop : stop = min (s.last + 1) (offset + bytes.length)) :
    overlay (s :: selections) byte offset bytes =
      bytes.take (s.first - offset) ++ List.replicate (stop - s.first) byte ++
        overlay selections byte stop (bytes.drop (stop - offset)) := by
  have hcovered : ∀ k, Covered (s :: selections) k ↔
      s.first ≤ k ∧ k ≤ s.last ∨ Covered selections k := by
    simp [Covered]
  have hothers : ∀ k ≤ s.last, ¬ Covered selections k := by
    rintro k hk ⟨t, ht, hlow, -⟩
    have hlt := hnext t ht
    omega
  have hkept : overlay (s :: selections) byte offset (bytes.take (s.first - offset)) =
      bytes.take (s.first - offset) := by
    apply overlay_eq_self
    intro k _ hk
    rw [List.length_take] at hk
    have hfirst := s.first_le_last
    rw [hcovered]
    rintro (hown | hother)
    · omega
    · exact hothers k (by omega) hother
  have hfilled : overlay (s :: selections) byte s.first
      ((bytes.drop (s.first - offset)).take (stop - s.first)) =
        List.replicate (stop - s.first) byte := by
    rw [overlay_eq_replicate]
    · congr 1
      simp only [List.length_take, List.length_drop]
      omega
    · intro k hlow hk
      rw [List.length_take] at hk
      exact (hcovered k).2 (.inl ⟨hlow, by omega⟩)
  have hback : (bytes.drop (s.first - offset)).drop (stop - s.first) =
      bytes.drop (stop - offset) := by
    rw [List.drop_drop]
    congr 1
    omega
  have hrest : overlay (s :: selections) byte stop (bytes.drop (stop - offset)) =
      overlay selections byte stop (bytes.drop (stop - offset)) := by
    apply overlay_congr
    intro k hlow hk
    rw [List.length_drop] at hk
    rw [hcovered, or_iff_right]
    omega
  rw [overlay_cut _ _ hfront (by omega), hkept, overlay_cut _ _ hproper
    (by rw [List.length_drop]; omega), hfilled, hback, hrest, List.append_assoc]

/-- The byte that is put in last is the one that is left. -/
theorem overlay_overlay (selections : List Selection) (byte byte' : UInt8) (offset : Nat)
    (bytes : Bytes) :
    overlay selections byte' offset (overlay selections byte offset bytes) =
      overlay selections byte' offset bytes := by
  unfold overlay
  apply List.ext_getElem
  · simp
  · intro k _ _
    by_cases hcovered : Covered selections (offset + k) <;> simp [hcovered]

theorem getElem?_overlay (selections : List Selection) (byte : UInt8) {k : Nat}
    (hk : k < bytes.length) :
    (overlay selections byte 0 bytes)[k]? =
      if Covered selections k then some byte else bytes[k]? := by
  by_cases hcovered : Covered selections k <;> simp [overlay, hcovered, hk]

/-- A byte is covered if a selection begins in front of the end. -/
theorem exists_covered_iff {length : Nat} :
    (∃ k < length, Covered selections k) ↔ ∃ s ∈ selections, s.first < length := by
  constructor
  · rintro ⟨k, hk, s, hs, hlow, -⟩
    exact ⟨s, hs, by omega⟩
  · rintro ⟨s, hs, hlt⟩
    exact ⟨s.first, hlt, s, hs, Nat.le_refl _, s.first_le_last⟩

end Overlay

/-! ## One selection -/

namespace Selection

variable {s : Selection} {length : Nat}

/-- The edit that puts one byte in place of all below a selection, in a file of the given length. -/
def overwriting (length : Nat) (byte : UInt8) (s : Selection) : LocalEdit where
  range := s.covered length
  replacement := List.replicate (s.covered length).size byte
  after := s

/-- As many bytes are put in as are taken out. -/
theorem replacement_overwriting (hlast : s.last ≤ length) (hlength : length < lastOffset)
    (byte : UInt8) :
    (s.overwriting length byte).replacement =
      List.replicate (min (s.last + 1) length - s.first) byte := by
  have hsize := Range.size_eq (s.start_covered_le_stop length) (s.stop_covered_le length)
    hlength.le
  rw [overwriting, hsize, covered_eq hlast hlength]

theorem growth_overwriting (s : Selection) (length : Nat) (byte : UInt8) :
    (s.overwriting length byte).growth = 0 := by
  simp [LocalEdit.growth, overwriting]

/-- There is something to overwrite unless the selection begins behind the last byte. -/
theorem isIdle_overwriting (hlast : s.last ≤ length) (hlength : length < lastOffset)
    (byte : UInt8) :
    ((s.overwriting length byte).isIdle = true ↔ length ≤ s.first) ∧
      ((s.overwriting length byte).replacement = [] ↔ length ≤ s.first) := by
  have hfirst := s.first_le_last
  have hreplacement := replacement_overwriting hlast hlength byte
  have hempty : (s.overwriting length byte).range.isEmpty = true ↔ length ≤ s.first := by
    simp only [overwriting, covered_eq hlast hlength, Range.isEmpty, decide_eq_true_eq]
    omega
  have hnone : (s.overwriting length byte).replacement = [] ↔ length ≤ s.first := by
    rw [hreplacement, List.replicate_eq_nil_iff]
    omega
  simp [LocalEdit.isIdle, hempty, hnone]

end Selection

/-! ## All selections -/

namespace LocalEdit

open Selection

variable {selections : List Selection} {length : Nat} {byte : UInt8}

/-- An edit that does something puts bytes in. -/
theorem replacement_ne_nil_of_mem_overwritings (hlast : ∀ s ∈ selections, s.last ≤ length)
    (hlength : length < lastOffset) :
    ∀ e ∈ selections.map (overwriting length byte), e.isIdle = false → e.replacement ≠ [] := by
  intro e he hbusy hnone
  obtain ⟨s, hs, rfl⟩ := List.mem_map.1 he
  obtain ⟨hidle, hempty⟩ := isIdle_overwriting (hlast s hs) hlength byte
  rw [hidle.2 (hempty.1 hnone)] at hbusy
  cases hbusy

theorem chained_overwritings (hseparate : selections.Pairwise fun s t => s.last < t.first)
    (length : Nat) (byte : UInt8) :
    Chained 0 length (selections.map (overwriting length byte)) :=
  chained_covered (fun _ => rfl) hseparate

/-- Nothing is moved. -/
theorem settle_overwritings (hlast : ∀ s ∈ selections, s.last ≤ length)
    (hlength : length < lastOffset) :
    settle 0 (selections.map (overwriting length byte)) = selections := by
  induction selections with
  | nil => simp [settle]
  | cons s selections ih =>
      have hlast' := hlast s List.mem_cons_self
      have hrest := ih fun t ht => hlast t (List.mem_cons_of_mem _ ht)
      rw [List.map_cons, settle, growth_overwriting, Int.add_zero, hrest]
      simp only [overwriting, shifted_zero (show s.last ≤ lastOffset by omega)]

theorem spaced_overwritings (low : Int) (byte : UInt8)
    (hseparate : selections.Pairwise fun s t => s.last < t.first)
    (hlast : ∀ s ∈ selections, s.last ≤ length) (hlow : ∀ s ∈ selections, low ≤ s.first) :
    Spaced length low 0 (selections.map (overwriting length byte)) := by
  induction selections generalizing low with
  | nil => trivial
  | cons s selections ih =>
      obtain ⟨hnext, hseparate⟩ := List.pairwise_cons.1 hseparate
      have hlow' := hlow s List.mem_cons_self
      have hlast' := hlast s List.mem_cons_self
      have hrest := ih (s.last + 1) hseparate
        (fun t ht => hlast t (List.mem_cons_of_mem _ ht)) fun t ht => by
          have hlt := hnext t ht
          omega
      refine ⟨by simpa [overwriting] using hlow', by simpa [overwriting] using hlast', ?_⟩
      rw [growth_overwriting]
      simpa [overwriting] using hrest

/-- What the edits leave of the bytes from an offset on. -/
theorem patch_overwritings {offset : Nat} {bytes : Bytes}
    (hchained : Chained offset length (selections.map (overwriting length byte)))
    (hseparate : selections.Pairwise fun s t => s.last < t.first)
    (hlast : ∀ s ∈ selections, s.last ≤ length) (hlength : length < lastOffset)
    (hbytes : offset + bytes.length = length) :
    patch offset bytes (selections.map (overwriting length byte)) =
      overlay selections byte offset bytes := by
  induction selections generalizing offset bytes with
  | nil =>
      symm
      apply overlay_eq_self
      simp [Covered]
  | cons s selections ih =>
      obtain ⟨hfront, hproper, hbehind⟩ := hchained
      obtain ⟨hnext, hseparate⟩ := List.pairwise_cons.1 hseparate
      have hlast' := hlast s List.mem_cons_self
      have hrange : (s.overwriting length byte).range = ⟨s.first, min (s.last + 1) length⟩ :=
        covered_eq hlast' hlength
      rw [hrange] at hfront hproper hbehind
      dsimp only at hfront hproper hbehind
      have hrest := @ih _ (bytes.drop (min (s.last + 1) length - offset)) hbehind hseparate
        (fun t ht => hlast t (List.mem_cons_of_mem _ ht)) (by rw [List.length_drop]; omega)
      rw [overlay_eq_append hnext hfront hproper (by rw [hbytes]), ← hrest, List.map_cons, patch,
        hrange, replacement_overwriting hlast' hlength]

end LocalEdit

namespace Rope

open Selection

variable {rope next : Rope} {set : SelectionSet}

/-- Edits that put bytes in, or else do nothing, make a new root if any of them puts bytes in. -/
theorem of_spliceAll_ok {edits : List LocalEdit}
    (hedits : ∀ e ∈ edits, e.isIdle = false → e.replacement ≠ [])
    (hok : rope.spliceAll edits = .ok next) :
    (∀ e ∈ edits, e.isIdle = true) ∧ next = rope ∨
      (∃ e ∈ edits, e.isIdle = false) ∧ next.Unmarked := by
  induction edits generalizing next with
  | nil =>
      cases hok
      simp
  | cons e edits ih =>
      rw [spliceAll_cons] at hok
      cases hrest : rope.spliceAll edits with
      | error refusal =>
          rw [hrest] at hok
          cases hok
      | ok rest =>
          have hbehind := ih (fun f hf => hedits f (List.mem_cons_of_mem _ hf)) hrest
          rw [hrest] at hok
          change (if e.isIdle then .ok rest else rest.splice e.range e.replacement) = _ at hok
          by_cases hidle : e.isIdle = true
          · rw [if_pos hidle] at hok
            cases hok
            simpa [hidle] using hbehind
          · rw [if_neg hidle] at hok
            rw [Bool.not_eq_true] at hidle
            have hunmarked := unmarked_splice (hedits e List.mem_cons_self hidle) hok
            exact .inr ⟨⟨e, List.mem_cons_self, hidle⟩, hunmarked⟩

theorem spliceAll_of_applyEdits {edit : Selection → LocalEdit} {e : Edited}
    (he : rope.applyEdits set (fun s _ => edit s) = .ok e) :
    rope.spliceAll (set.selections.map edit) = .ok e.buffer := by
  rw [applyEdits_eq, LocalEdit.map_zipIdx_eq_map] at he
  cases hnext : rope.spliceAll (set.selections.map edit) with
  | error refusal =>
      rw [hnext] at he
      cases he
  | ok next =>
      rw [hnext] at he
      cases he
      rfl

theorem overwrite_eq (rope : Rope) (set : SelectionSet) (byte : UInt8) :
    rope.overwrite set byte =
      rope.applyEdits set fun s _ => overwriting rope.length byte s := by
  rfl

/-- Overwriting replaces the bytes below the selections and leaves the selections.  It makes a new
version if there is such a byte, and otherwise it leaves the version. -/
theorem Sound.exists_overwrite_eq (h : rope.Sound) (hset : set.Valid rope.length)
    (hlength : rope.length < lastOffset) (byte : UInt8) :
    ∃ e, rope.overwrite set byte = .ok e ∧ e.buffer.Sound ∧
      e.buffer.toBytes = overlay set.selections byte 0 rope.toBytes ∧ e.selections = set ∧
      ((∃ k < rope.length, Covered set.selections k) → e.buffer.Unmarked) ∧
      ((¬ ∃ k < rope.length, Covered set.selections k) → e.buffer = rope) := by
  have hwhole : 0 + rope.toBytes.length = rope.length := by rw [h.length_eq, Nat.zero_add]
  have hchained := LocalEdit.chained_overwritings hset.separate rope.length byte
  have hpatch := LocalEdit.patch_overwritings hchained hset.separate hset.last_le hlength hwhole
  have htotal : (LocalEdit.patch 0 rope.toBytes
      (set.selections.map (overwriting rope.length byte))).length = rope.length := by
    rw [hpatch, length_overlay, h.length_eq]
  have hspaced := LocalEdit.spaced_overwritings 0 byte hset.separate hset.last_le (by simp)
  obtain ⟨e, he, hsound, hbytes, hselections, -⟩ := h.exists_applyEdits_eq_patch hset.main_lt
    (fun s _ => overwriting rope.length byte s) (LocalEdit.map_zipIdx_eq_map ..) hchained
    (by rw [htotal]; exact hspaced) (by rw [htotal]; exact hlength.le)
  rw [hpatch] at hbytes
  rw [LocalEdit.settle_overwritings hset.last_le hlength] at hselections
  have hidle : ∀ s ∈ set.selections,
      ((overwriting rope.length byte s).isIdle = true ↔ rope.length ≤ s.first) :=
    fun s hs => (isIdle_overwriting (hset.last_le s hs) hlength byte).1
  refine ⟨e, (overwrite_eq ..).trans he, hsound, hbytes, hselections, ?_⟩
  rw [exists_covered_iff]
  obtain ⟨hnone, hsame⟩ | ⟨⟨edit, hedit, hbusy⟩, hunmarked⟩ := of_spliceAll_ok
    (LocalEdit.replacement_ne_nil_of_mem_overwritings hset.last_le hlength)
    (spliceAll_of_applyEdits he)
  · refine ⟨?_, fun _ => hsame⟩
    rintro ⟨s, hs, hfirst⟩
    have hempty := (hidle s hs).1 (hnone _ (List.mem_map_of_mem hs))
    omega
  · refine ⟨fun _ => hunmarked, ?_⟩
    intro hnone
    obtain ⟨s, hs, rfl⟩ := List.mem_map.1 hedit
    rw [← Bool.not_eq_true, hidle s hs] at hbusy
    exact absurd ⟨s, hs, by omega⟩ hnone

end Rope

end HexEditor
