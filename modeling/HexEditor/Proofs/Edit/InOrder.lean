import HexEditor.Edit.Basic
import HexEditor.Proofs.Selection.Refine
import HexEditor.Proofs.Session.Valid

/-!
# Edits that fit into their version

An edit at several places splices from the last place to the first.  No splice is
refused if the places lie in the version, in order and without overlaps, because what is
spliced behind a place leaves everything in front of it alone.  The selections of a valid
set share no offset, so the places of every operation are in order, with one exception:
erasing in front of two insertion points that have both been moved back to the end of the
file.

Main results:

- Definition `LocalEdit.InOrder` and theorem `Rope.Sound.exists_applyEdits`: local edits
  in order can be carried out.
- Theorems `Rope.Sound.exists_yank`, `exists_delete`, `exists_insert`, `exists_paste`,
  `exists_overwrite` and `exists_eraseAt`: these operations are never refused.
- Definition `SelectionSet.CrowdsEnd` and theorems `Rope.Sound.exists_eraseBefore` and
  `Rope.Sound.eraseBefore_crowded`: erasing in front of the insertion points is refused
  exactly when two selections crowd the end of the file.
-/

namespace HexEditor

/-! ## Edits in order -/

/-- The edits replace ranges of a version of the given length, in order and without
overlaps. -/
structure LocalEdit.InOrder (edits : List LocalEdit) (length : Nat) : Prop where
  /-- No edit begins in front of the end of an earlier one. -/
  ordered : edits.Pairwise fun e f => e.range.stop ≤ f.range.start
  /-- The ranges lie in the version. -/
  within : ∀ e ∈ edits, e.range.start ≤ e.range.stop ∧ e.range.stop ≤ length

namespace Rope

variable {rope : Rope} {set : SelectionSet}

theorem spliceAll_cons (rope : Rope) (e : LocalEdit) (edits : List LocalEdit) :
    rope.spliceAll (e :: edits) = rope.spliceAll edits >>= fun next =>
      if e.isIdle then .ok next else next.splice e.range e.replacement := by
  rw [spliceAll, List.foldrM_cons]
  rfl

/-- An edit in front of the others is spliced last.  One that replaces nothing by nothing is passed
over, which splicing would do as well. -/
theorem spliceAll_cons_of_splice {rest next : Rope} {e : LocalEdit} {edits : List LocalEdit}
    (hrest : rope.spliceAll edits = .ok rest) (hholds : rest.Holds e.range)
    (hnext : rest.splice e.range e.replacement = .ok next) :
    rope.spliceAll (e :: edits) = .ok next := by
  rw [spliceAll_cons, hrest]
  change (if e.isIdle then .ok rest else rest.splice e.range e.replacement) = Except.ok next
  split_ifs with hidle
  · rw [← splice_idle hholds hidle]
    exact hnext
  · exact hnext

/-- Splicing keeps what lies in front of the range, so the version does not become
shorter than that. -/
theorem Sound.start_le_length_splice (h : rope.Sound) {range : Range}
    (hrange : rope.Holds range) {replacement : Bytes} {next : Rope}
    (hok : rope.splice range replacement = .ok next) : range.start ≤ next.length := by
  rcases h.splice hrange replacement with ⟨s, hs, hsound, hbytes⟩
  rw [hok] at hs
  cases hs
  have hordered := hrange.1
  have hwithin := hrange.2
  rw [h.length_eq] at hwithin
  rw [hsound.length_eq, hbytes]
  simp only [List.length_append, List.length_take]
  omega

/-- Edits in order can be carried out from the last to the first.  The induction carries
that an offset in front of all of them stays within the version. -/
theorem Sound.exists_spliceAll (h : rope.Sound) {edits : List LocalEdit}
    (hedits : LocalEdit.InOrder edits rope.length) :
    ∃ next, rope.spliceAll edits = .ok next ∧ next.Sound ∧
      ∀ offset ≤ rope.length, (∀ e ∈ edits, offset ≤ e.range.start) →
        offset ≤ next.length := by
  induction edits with
  | nil => exact ⟨rope, rfl, h, fun _ hoffset _ => hoffset⟩
  | cons e edits ih =>
      rcases List.pairwise_cons.1 hedits.ordered with ⟨hbehind, hordered⟩
      rcases ih ⟨hordered, fun f hf => hedits.within f (List.mem_cons_of_mem _ hf)⟩ with
        ⟨next, hnext, hsound, hkept⟩
      rcases hedits.within e List.mem_cons_self with ⟨hproper, hwithin⟩
      have hholds : next.Holds e.range := ⟨hproper, hkept _ hwithin hbehind⟩
      rcases hsound.splice hholds e.replacement with ⟨s, hs, hsound', -⟩
      refine ⟨s, spliceAll_cons_of_splice hnext hholds hs, hsound', ?_⟩
      intro offset _ hfront
      exact (hfront e List.mem_cons_self).trans (hsound.start_le_length_splice hholds hs)

theorem applyEdits_eq (rope : Rope) (set : SelectionSet)
    (edit : Selection → Nat → LocalEdit) :
    rope.applyEdits set edit =
      (rope.spliceAll (set.selections.zipIdx.map fun (s, i) => edit s i)).map fun next =>
        ⟨next, (SelectionSet.ofList (LocalEdit.remaining
          (set.selections.zipIdx.map fun (s, i) => edit s i)) set.main).clamped next.length⟩ := by
  rw [applyEdits]
  rcases rope.spliceAll (set.selections.zipIdx.map fun (s, i) => edit s i) with error | next
  · rfl
  · rfl

/-- If every selection of a valid set is edited within the version, and no selection
behind the end of an earlier one is edited in front of that, the edits can be carried
out. -/
theorem Sound.exists_applyEdits (h : rope.Sound) (hset : set.Valid rope.length)
    {edit : Selection → Nat → LocalEdit}
    (hwithin : ∀ s ∈ set.selections, ∀ i,
      (edit s i).range.start ≤ (edit s i).range.stop ∧ (edit s i).range.stop ≤ rope.length)
    (hordered : ∀ s ∈ set.selections, ∀ t ∈ set.selections, s.last < t.first → ∀ i j,
      (edit s i).range.stop ≤ (edit t j).range.start) :
    ∃ edited, rope.applyEdits set edit = .ok edited := by
  have hmem : ∀ p ∈ set.selections.zipIdx, p.1 ∈ set.selections := fun p hp =>
    List.fst_mem_of_mem_zipIdx hp
  have hseparate : set.selections.zipIdx.Pairwise fun p q => p.1.last < q.1.first := by
    rw [← List.pairwise_map (R := fun s t : Selection => s.last < t.first) (f := Prod.fst),
      List.zipIdx_map_fst]
    exact hset.separate
  have hin : LocalEdit.InOrder (set.selections.zipIdx.map fun (s, i) => edit s i)
      rope.length := by
    constructor
    · rw [List.pairwise_map]
      apply hseparate.imp_of_mem
      intro p q hp hq hpq
      exact hordered p.1 (hmem p hp) q.1 (hmem q hq) hpq p.2 q.2
    · intro e he
      rcases List.mem_map.1 he with ⟨p, hp, rfl⟩
      exact hwithin p.1 (hmem p hp) p.2
  rcases h.exists_spliceAll hin with ⟨next, hnext, -, -⟩
  rw [applyEdits_eq, hnext]
  exact ⟨_, rfl⟩

end Rope

/-! ## The places of the operations -/

namespace Selection

variable {s t : Selection} {length : Nat}

/-- The offset behind a selection is a word if the length of the file is one that leaves
room for it. -/
theorem behind_eq (hlast : s.last ≤ length) (hlength : length < lastOffset) :
    s.behind = s.last + 1 := by
  apply Nat.mod_eq_of_lt
  unfold lastOffset at hlength
  omega

theorem insertionPoint_le (s : Selection) (side : Side) (length : Nat) :
    s.insertionPoint side length ≤ length := by
  cases side
  · exact Nat.min_le_right _ _
  · exact Nat.min_le_right _ _

theorem insertionPoint_before (hlast : s.last ≤ length) :
    s.insertionPoint .before length = s.first :=
  Nat.min_eq_left (s.first_le_last.trans hlast)

theorem insertionPoint_after (hlast : s.last ≤ length) (hlength : length < lastOffset) :
    s.insertionPoint .after length = min (s.last + 1) length := by
  rw [insertionPoint, behind_eq hlast hlength]

/-- Bytes are inserted at a selection no later than at a later one. -/
theorem insertionPoint_mono (h : s.last < t.first) (ht : t.last ≤ length)
    (hlength : length < lastOffset) (side : Side) :
    s.insertionPoint side length ≤ t.insertionPoint side length := by
  have hfirst := s.first_le_last
  have hfirst' := t.first_le_last
  have hs : s.last ≤ length := by omega
  cases side with
  | before =>
      rw [insertionPoint_before hs, insertionPoint_before ht]
      omega
  | after =>
      rw [insertionPoint_after hs hlength, insertionPoint_after ht hlength]
      omega

end Selection

/-- Two selections end where nothing is left to insert behind them but the end of the
file: one at the last byte, and one behind it. -/
def SelectionSet.CrowdsEnd (set : SelectionSet) (length : Nat) : Prop :=
  (∃ s ∈ set.selections, s.last + 1 = length) ∧ ∃ t ∈ set.selections, t.last = length

instance (set : SelectionSet) (length : Nat) : Decidable (set.CrowdsEnd length) :=
  inferInstanceAs (Decidable (_ ∧ _))

namespace Rope

variable {rope : Rope} {set : SelectionSet}

/-! ## Operations that are never refused -/

theorem exists_slice {range : Range} (h : rope.Holds range) :
    ∃ bytes, rope.slice range = .ok bytes :=
  ⟨rope.read range, if_pos h⟩

/-- The bytes below the selections can be copied. -/
theorem exists_yank (rope : Rope) (set : SelectionSet) :
    ∃ entries, rope.yank set = .ok entries := by
  rw [yank, SelectionSet.coveredRanges]
  induction set.selections with
  | nil => exact ⟨[], rfl⟩
  | cons s selections ih =>
      rcases ih with ⟨entries, hentries⟩
      have hholds : rope.Holds (s.covered rope.length) :=
        ⟨s.start_covered_le_stop _, s.stop_covered_le _⟩
      rcases exists_slice hholds with ⟨bytes, hbytes⟩
      rw [List.map_cons, List.mapM_cons, hbytes, hentries]
      exact ⟨bytes :: entries, rfl⟩

theorem Sound.exists_delete (h : rope.Sound) (hset : set.Valid rope.length) :
    ∃ edited, rope.delete set = .ok edited := by
  apply h.exists_applyEdits hset
  · intro s _ _
    exact ⟨s.start_covered_le_stop _, s.stop_covered_le _⟩
  · intro s _ t _ hst _ _
    exact Selection.stop_covered_le_start hst

theorem Sound.exists_overwrite (h : rope.Sound) (hset : set.Valid rope.length)
    (byte : UInt8) : ∃ edited, rope.overwrite set byte = .ok edited := by
  apply h.exists_applyEdits hset
  · intro s _ _
    exact ⟨s.start_covered_le_stop _, s.stop_covered_le _⟩
  · intro s _ t _ hst _ _
    exact Selection.stop_covered_le_start hst

theorem Sound.exists_insert (h : rope.Sound) (hset : set.Valid rope.length)
    (hlength : rope.length < lastOffset) (bytes : Bytes) (side : Side) :
    ∃ edited, rope.insert set bytes side = .ok edited := by
  apply h.exists_applyEdits hset
  · intro s _ _
    exact ⟨Nat.le_refl _, s.insertionPoint_le side _⟩
  · intro s _ t ht hst _ _
    exact Selection.insertionPoint_mono hst (hset.last_le t ht) hlength side

theorem Sound.exists_paste (h : rope.Sound) (hset : set.Valid rope.length)
    (hlength : rope.length < lastOffset) (entries : List Bytes) (side : Side) (count : Nat) :
    ∃ edited, rope.paste set entries side count = .ok edited := by
  rw [paste]
  split_ifs
  · exact ⟨_, rfl⟩
  · apply h.exists_applyEdits hset
    · intro s _ _
      exact ⟨Nat.le_refl _, s.insertionPoint_le side _⟩
    · intro s _ t ht hst _ _
      exact Selection.insertionPoint_mono hst (hset.last_le t ht) hlength side

/-! ## Erasing -/

/-- The bytes at the insertion points can be erased: no two of them are the same byte,
and behind the end there is nothing to erase. -/
theorem Sound.exists_eraseAt (h : rope.Sound) (hset : set.Valid rope.length)
    (hlength : rope.length < lastOffset) (side : Side) :
    ∃ edited, rope.eraseAt set side = .ok edited := by
  apply h.exists_applyEdits hset
  · intro s _ _
    cases side <;> dsimp only <;> split_ifs <;> dsimp only <;> omega
  · intro s hs t ht hst _ _
    have hfirst := s.first_le_last
    have hfirst' := t.first_le_last
    have hbehind := Selection.behind_eq (hset.last_le s hs) hlength
    have hbehind' := Selection.behind_eq (hset.last_le t ht) hlength
    cases side <;> dsimp only <;> split_ifs <;> dsimp only <;> omega

/-- Erasing the byte in front of the insertion point of a selection: nothing is erased at
the start of the file. -/
theorem Sound.exists_eraseBefore_of_lt (h : rope.Sound) (hset : set.Valid rope.length)
    (side : Side)
    (hpoints : ∀ s ∈ set.selections, ∀ t ∈ set.selections, s.last < t.first →
      s.insertionPoint side rope.length < t.insertionPoint side rope.length) :
    ∃ edited, rope.eraseBefore set side = .ok edited := by
  apply h.exists_applyEdits hset
  · intro s _ _
    have hpoint := s.insertionPoint_le side rope.length
    dsimp only
    split_ifs <;> dsimp only <;> omega
  · intro s hs t ht hst _ _
    have hpoint := hpoints s hs t ht hst
    dsimp only
    split_ifs <;> dsimp only <;> omega

theorem Sound.exists_eraseBefore (h : rope.Sound) (hset : set.Valid rope.length)
    (hlength : rope.length < lastOffset) {side : Side}
    (hclear : side = .after → ¬ set.CrowdsEnd rope.length) :
    ∃ edited, rope.eraseBefore set side = .ok edited := by
  apply h.exists_eraseBefore_of_lt hset side
  intro s hs t ht hst
  have hfirst := s.first_le_last
  have hfirst' := t.first_le_last
  have hlast := hset.last_le t ht
  cases side with
  | before =>
      rw [Selection.insertionPoint_before (hset.last_le s hs),
        Selection.insertionPoint_before hlast]
      omega
  | after =>
      rw [Selection.insertionPoint_after (hset.last_le s hs) hlength,
        Selection.insertionPoint_after hlast hlength]
      by_contra hcollide
      apply hclear rfl
      exact ⟨⟨s, hs, by omega⟩, t, ht, by omega⟩

/-- Erasing the end of a version twice is refused the second time. -/
theorem Sound.spliceAll_twice (h : rope.Sound) (range : Range)
    (hproper : range.start < range.stop) (hstop : range.stop = rope.length) {e f : LocalEdit}
    (he : e.range = range ∧ e.replacement = []) (hf : f.range = range ∧ f.replacement = [])
    (edits : List LocalEdit) :
    rope.spliceAll (edits ++ [e, f]) = .error (.splice range range.start) := by
  have hbusy : ∀ d : LocalEdit, d.range = range → d.isIdle = false := by
    intro d hd
    simp only [LocalEdit.isIdle, Range.isEmpty, hd, Bool.and_eq_false_iff,
      decide_eq_false_iff_not]
    omega
  have hholds : rope.Holds range := ⟨hproper.le, hstop.le⟩
  rcases h.splice hholds [] with ⟨next, hnext, hsound, hbytes⟩
  have hlength : next.length = range.start := by
    rw [hsound.length_eq, hbytes, hstop, h.length_eq]
    rw [h.length_eq] at hstop
    simp only [List.length_append, List.length_take, List.drop_length, List.length_nil]
    omega
  have hrefused : next.splice range [] = .error (.splice range range.start) := by
    rw [← hlength, splice_error_iff]
    omega
  have hpair : rope.spliceAll [e, f] = .error (.splice range range.start) := by
    simp only [spliceAll, List.foldrM_cons, List.foldrM_nil, hbusy e he.1, hbusy f hf.1,
      he, hf, Bool.false_eq_true, if_false, pure_bind, hnext, ← hrefused]
    rfl
  rw [spliceAll, List.foldrM_append]
  rw [spliceAll] at hpair
  rw [hpair]
  rfl

end Rope

namespace SelectionSet

/-- The selections that crowd the end of the file are the last two of their set. -/
theorem Valid.last_two_of_crowdsEnd {set : SelectionSet} {length : Nat}
    (h : set.Valid length) (hcrowds : set.CrowdsEnd length) :
    ∃ front s t, set.selections = front ++ [s, t] ∧ s.last + 1 = length ∧ t.last = length := by
  rcases hcrowds with ⟨⟨s, hs, hslast⟩, t, ht, htlast⟩
  rcases List.append_of_mem hs with ⟨front, back, hsplit⟩
  have hseparate := h.separate
  rw [hsplit, List.pairwise_append, List.pairwise_cons] at hseparate
  rcases hseparate with ⟨-, ⟨hback, hbacks⟩, hfront⟩
  rw [hsplit] at ht
  have htback : t ∈ back := by
    rcases List.mem_append.1 ht with ht | ht
    · have hlt := hfront t ht s List.mem_cons_self
      have hfirst := s.first_le_last
      omega
    · rcases List.mem_cons.1 ht with rfl | ht
      · omega
      · exact ht
  -- whatever lies behind the last byte is the one place behind it
  have hend : ∀ u ∈ back, u.first = length ∧ u.last = length := by
    intro u hu
    have hmem : u ∈ set.selections := by
      rw [hsplit]
      exact List.mem_append_right _ (List.mem_cons_of_mem _ hu)
    have hlt := hback u hu
    have hfirst := u.first_le_last
    have hlast := h.last_le u hmem
    omega
  rcases back with _ | ⟨u, _ | ⟨v, others⟩⟩
  · cases htback
  · exact ⟨front, s, u, hsplit, hslast, (hend u List.mem_cons_self).2⟩
  · have hlt := (List.pairwise_cons.1 hbacks).1 v List.mem_cons_self
    have hu := hend u List.mem_cons_self
    have hv := hend v (List.mem_cons_of_mem _ List.mem_cons_self)
    omega

end SelectionSet

namespace Rope

variable {rope : Rope} {set : SelectionSet}

/-- Two selections that crowd the end of the file would both erase the last byte. -/
theorem Sound.eraseBefore_crowded (h : rope.Sound) (hset : set.Valid rope.length)
    (hlength : rope.length < lastOffset) (hcrowds : set.CrowdsEnd rope.length) :
    rope.eraseBefore set .after =
      .error (.splice ⟨rope.length - 1, rope.length⟩ (rope.length - 1)) := by
  rcases hset.last_two_of_crowdsEnd hcrowds with ⟨front, s, t, hsplit, hs, ht⟩
  have hspoint : s.insertionPoint .after rope.length = rope.length := by
    rw [Selection.insertionPoint_after (by omega) hlength]
    omega
  have htpoint : t.insertionPoint .after rope.length = rope.length := by
    rw [Selection.insertionPoint_after (by omega) hlength]
    omega
  have hpos : ¬ rope.length = 0 := by omega
  have hproper : rope.length - 1 < rope.length := by omega
  rw [eraseBefore, applyEdits_eq, hsplit, List.zipIdx_append, List.map_append, List.zipIdx_cons,
    List.zipIdx_cons, List.zipIdx_nil, List.map_cons, List.map_cons, List.map_nil,
    h.spliceAll_twice ⟨rope.length - 1, rope.length⟩ hproper rfl]
  · rfl
  · simp only [hspoint, hpos, if_false, and_self]
  · simp only [htpoint, hpos, if_false, and_self]

end Rope

end HexEditor
