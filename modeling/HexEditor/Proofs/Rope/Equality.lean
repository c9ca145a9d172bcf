import HexEditor.Proofs.Rope.Walk

/-!
# Comparing versions byte by byte

Two versions are compared by walking over both at the same time.  Each side has the unread part
of a chunk and the chunks behind it; the sides need not be cut into chunks at the same offsets.

Main results:

- Theorem `Rope.sameRest_iff`: the comparison of what two walks have left.
- Theorem `Rope.Sound.sameBytes_iff`: sound versions compare as equal exactly if they hold the
  same bytes.
-/

namespace HexEditor

namespace Rope

variable {r s : Rope}

/-- Without empty chunks, a walk that has bytes left hands out a chunk. -/
theorem isNone_next?_iff {c : Chunks} (hchunks : ∀ chunk ∈ c.toList, 0 < chunk.length) :
    c.next?.isNone = true ↔ c.bytes = [] := by
  rcases hnext : c.next? with _ | ⟨chunk, rest⟩
  · exact iff_of_true rfl (Chunks.bytes_of_next?_eq_none hnext)
  · rw [Chunks.bytes_of_next?_eq_some hnext]
    have hpos : 0 < chunk.length := by
      apply hchunks
      rw [Chunks.toList_of_next?_eq_some hnext]
      exact List.mem_cons_self
    refine iff_of_false (by simp) fun hnil => ?_
    rw [(List.append_eq_nil_iff.1 hnil).1] at hpos
    cases hpos

/-- What two walks have left compares as equal exactly if it is.  The induction follows the
comparison, which refills a side as soon as its chunk is used up. -/
theorem sameRest_iff {x y : Bytes} {xs ys : Chunks}
    (hchunks : ∀ chunk ∈ ys.toList, 0 < chunk.length) :
    sameRest x xs y ys = true ↔ x ++ xs.bytes = y ++ ys.bytes := by
  fun_induction sameRest x xs y ys with
  | case1 xs ys a x b y ih =>
      rw [Bool.and_eq_true, beq_iff_eq, ih hchunks, List.cons_append, List.cons_append,
        List.cons.injEq]
  | case2 xs ys y x' xs' hnext ih =>
      rw [ih hchunks, Chunks.bytes_of_next?_eq_some hnext, List.nil_append]
  | case3 xs ys y hnext =>
      rw [Bool.and_eq_true, List.isEmpty_iff, isNone_next?_iff hchunks,
        Chunks.bytes_of_next?_eq_none hnext, List.append_nil, eq_comm (b := y ++ ys.bytes),
        List.append_eq_nil_iff]
  | case4 xs ys a x y' ys' hnext ih =>
      rw [Chunks.toList_of_next?_eq_some hnext] at hchunks
      rw [ih fun chunk hchunk => hchunks chunk (List.mem_cons_of_mem _ hchunk),
        Chunks.bytes_of_next?_eq_some hnext, List.nil_append]
  | case5 xs ys a x hnext =>
      rw [Chunks.bytes_of_next?_eq_none hnext]
      exact iff_of_false Bool.false_ne_true (List.cons_ne_nil _ _)

/-- Sound versions compare as equal exactly if they hold the same bytes, provided that those of
one identity do. -/
theorem Sound.sameBytes_iff (hr : r.Sound) (hs : s.Sound)
    (hversion : r.sameVersion s = true → r.toBytes = s.toBytes) :
    r.sameBytes s = true ↔ r.toBytes = s.toBytes := by
  have hwhole : ∀ {t : Rope}, t.Sound → (t.chunks ⟨0, t.length⟩).bytes = t.toBytes := by
    intro t ht
    rw [ht.bytes_chunks, ht.length_eq]
    exact List.take_length
  rw [sameBytes]
  split_ifs with hsame hlength
  · exact iff_of_true rfl (hversion hsame)
  · refine iff_of_false not_false fun hbytes => hlength ?_
    rw [hr.length_eq, hs.length_eq, hbytes]
  · rw [sameRest_iff fun chunk hchunk => ((hs.chunks_spread _).2 chunk hchunk).1, hwhole hr,
      hwhole hs]
    rfl

/-- Sound versions that hold the same bytes compare as equal. -/
theorem Sound.sameBytes_of_toBytes_eq (hr : r.Sound) (hs : s.Sound)
    (h : r.toBytes = s.toBytes) : r.sameBytes s = true :=
  (hr.sameBytes_iff hs fun _ => h).2 h

end Rope

end HexEditor
