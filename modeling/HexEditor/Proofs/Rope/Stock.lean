import HexEditor.Proofs.Rope.Equality
import HexEditor.Proofs.Rope.Marked
import HexEditor.Proofs.Rope.Reading

/-!
# Comparing the versions of a stock

All versions that exist at the same time form a stock.  Each of them was loaded from bytes or comes
from an earlier one, and each completion has a number of its own, so that a mark stands for the same
bytes in all of them.  Within a stock, versions compare as equal exactly if they hold the same
bytes, whatever their trees look like.

Main results:

- Definition `Rope.Stock`: the versions that loading, splicing and completing lead to.
- Theorems `Rope.Stock.reachable` and `Rope.Stock.exists_filed`: its versions can come up, and their
  marks are on record.
- Theorem `Rope.sameBytes_decides_bytes`: comparing decides whether the bytes are the same,
  the same version holds the same bytes, and so does a version with a range replaced by itself.
-/

namespace HexEditor

namespace Rope

variable {r s : Rope} {count : Nat} {versions : List Rope}

/-- The versions that have been made so far, and how many of them have been completed.  Completing
numbers the versions in order. -/
inductive Stock : Nat → List Rope → Prop where
  /-- At first there is the version without bytes. -/
  | start : Stock 0 [.empty]
  /-- A version is loaded from bytes. -/
  | load {count : Nat} {versions : List Rope} (stock : Stock count versions)
      (bytes : Bytes) : Stock count (.ofBytes bytes :: versions)
  /-- A range of a version is replaced. -/
  | splice {count : Nat} {versions : List Rope} {r s : Rope} {range : Range}
      {replacement : Bytes} (stock : Stock count versions) (known : r ∈ versions)
      (spliced : r.splice range replacement = .ok s) : Stock count (s :: versions)
  /-- A version is completed, and gets the next number. -/
  | complete {count : Nat} {versions : List Rope} {r : Rope} (stock : Stock count versions)
      (known : r ∈ versions) : Stock (count + 1) (r.complete count :: versions)

namespace Stock

/-- The versions of a stock can come up. -/
theorem reachable (h : Stock count versions) : ∀ r ∈ versions, r.Reachable := by
  induction h with
  | start => exact List.forall_mem_singleton.2 .empty
  | load _ bytes ih => exact List.forall_mem_cons.2 ⟨.ofBytes bytes, ih⟩
  | splice _ hknown hspliced ih => exact List.forall_mem_cons.2 ⟨(ih _ hknown).splice hspliced, ih⟩
  | complete _ hknown ih => exact List.forall_mem_cons.2 ⟨(ih _ hknown).complete _, ih⟩

/-- There is one record of what the marks of all versions stand for. -/
theorem exists_filed (h : Stock count versions) :
    ∃ content, ∀ r ∈ versions, r.Filed content count := by
  induction h with
  | start => exact ⟨fun _ => [], List.forall_mem_singleton.2 filed_empty⟩
  | load _ bytes ih =>
      rcases ih with ⟨content, hfiled⟩
      exact ⟨content, List.forall_mem_cons.2 ⟨filed_ofBytes bytes, hfiled⟩⟩
  | splice _ hknown hspliced ih =>
      rcases ih with ⟨content, hfiled⟩
      exact ⟨content, List.forall_mem_cons.2 ⟨(hfiled _ hknown).splice hspliced, hfiled⟩⟩
  | @complete count _ _ _ hknown ih =>
      rcases ih with ⟨content, hfiled⟩
      rcases (hfiled _ hknown).complete with ⟨content', hkept, hcompleted⟩
      refine ⟨content', List.forall_mem_cons.2 ⟨hcompleted, fun r hr => ?_⟩⟩
      exact (hfiled r hr).extend (Nat.le_succ count) hkept

/-- The same version holds the same bytes. -/
theorem toBytes_eq_of_sameVersion (h : Stock count versions) (hr : r ∈ versions)
    (hs : s ∈ versions) (hsame : r.sameVersion s = true) : r.toBytes = s.toBytes := by
  rcases h.exists_filed with ⟨content, hfiled⟩
  exact (hfiled r hr).toBytes_eq_of_sameVersion (hfiled s hs) hsame

/-- The versions of a stock compare as equal exactly if they hold the same bytes. -/
theorem sameBytes_iff (h : Stock count versions) (hr : r ∈ versions) (hs : s ∈ versions) :
    r.sameBytes s = true ↔ r.toBytes = s.toBytes :=
  (h.reachable r hr).sound.sameBytes_iff (h.reachable s hs).sound
    (h.toBytes_eq_of_sameVersion hr hs)

end Stock

/-- A range of a version that can come up can be read, and replaced by what has been read.  The
bytes are the same as before. -/
theorem Reachable.exists_splice_slice (h : r.Reachable) {range : Range} (hrange : r.Holds range) :
    ∃ part t, r.slice range = .ok part ∧ r.splice range part = .ok t ∧ t.toBytes = r.toBytes := by
  rcases h.exists_splice hrange ((r.toBytes.drop range.start).take (range.stop - range.start)) with
    ⟨t, ht, -, hbytes⟩
  refine ⟨_, t, h.sound.slice_eq hrange, ht, hbytes.trans ?_⟩
  have hbehind : r.toBytes.drop range.stop =
      (r.toBytes.drop range.start).drop (range.stop - range.start) := by
    rw [List.drop_drop, Nat.add_sub_cancel' hrange.1]
  rw [hbehind, List.append_assoc, List.take_append_drop, List.take_append_drop]

/-- Comparing any two versions of a stock comes to an end, and the answer is whether they hold the
same bytes.  In particular the very same version compares as equal.  Every range of a version can be
replaced by the bytes that are read there, and the new version, completed or not, compares as equal
to the one it comes from. -/
theorem sameBytes_decides_bytes (h : Stock count versions) :
    (∀ r ∈ versions, ∀ s ∈ versions,
      r.sameBytes s = decide (r.toBytes = s.toBytes) ∧
        (r.sameVersion s = true → r.sameBytes s = true)) ∧
    ∀ r ∈ versions, ∀ range : Range, r.Holds range →
      ∃ part t, r.slice range = .ok part ∧ r.splice range part = .ok t ∧
        t.sameBytes r = true ∧ (t.complete count).sameBytes r = true := by
  constructor
  · intro r hr s hs
    constructor
    · rw [Bool.eq_iff_iff, decide_eq_true_iff]
      exact h.sameBytes_iff hr hs
    · intro hsame
      exact (h.sameBytes_iff hr hs).2 (h.toBytes_eq_of_sameVersion hr hs hsame)
  · intro r hr range hrange
    rcases (h.reachable r hr).exists_splice_slice hrange with ⟨part, t, hpart, ht, hbytes⟩
    refine ⟨part, t, hpart, ht, ?_, ?_⟩
    · have hspliced := h.splice hr ht
      exact (hspliced.sameBytes_iff List.mem_cons_self (List.mem_cons_of_mem _ hr)).2 hbytes
    · have hcompleted := (h.splice hr ht).complete List.mem_cons_self
      have hr' := List.mem_cons_of_mem (t.complete count) (List.mem_cons_of_mem t hr)
      refine (hcompleted.sameBytes_iff List.mem_cons_self hr').2 ?_
      rw [toBytes_complete, hbytes]

/-- Fifteen hundred bytes that are loaded at once fill a leaf and half of another one.  If the last
five hundred are put behind the first thousand, the boundary between the leaves is elsewhere, and
the two versions compare as equal. -/
theorem sameBytes_decides_bytes_split :
    ∃ s, (ofBytes (List.replicate 1000 0)).splice ⟨1000, 1000⟩ (List.replicate 500 0) = .ok s ∧
      Stock 0 [s, ofBytes (List.replicate 1000 0), ofBytes (List.replicate 1500 0), .empty] ∧
      s.sameBytes (ofBytes (List.replicate 1500 0)) = true := by
  have hloaded : Stock 0
      [ofBytes (List.replicate 1000 0), ofBytes (List.replicate 1500 0), .empty] :=
    (Stock.start.load _).load _
  have hholds : (ofBytes (List.replicate 1000 0)).Holds ⟨1000, 1000⟩ :=
    ⟨Nat.le_refl _, by rw [length_ofBytes, List.length_replicate]⟩
  rcases (Reachable.ofBytes _).exists_splice hholds (List.replicate 500 0) with
    ⟨s, hs, -, hbytes⟩
  have hstock := hloaded.splice List.mem_cons_self hs
  refine ⟨s, hs, hstock, ?_⟩
  have hknown : ofBytes (List.replicate 1500 0) ∈
      [s, ofBytes (List.replicate 1000 0), ofBytes (List.replicate 1500 0), .empty] :=
    List.mem_cons_of_mem _ (List.mem_cons_of_mem _ List.mem_cons_self)
  rw [((sameBytes_decides_bytes hstock).1 s List.mem_cons_self _ hknown).1, decide_eq_true_iff,
    hbytes, toBytes_ofBytes, toBytes_ofBytes, List.take_replicate, List.drop_replicate,
    List.replicate_append_replicate, List.replicate_append_replicate]
  exact congrArg (List.replicate · 0) (by decide)

end Rope

end HexEditor
