import HexEditor.Proofs.Rope.Walk

/-!
# Reading a version

There are three ways to read a version: a range at once, the byte at an offset, and a range chunk by
chunk.  The first two visit only the nodes that hold some of the bytes, and the third keeps a stack
of the nodes that come next.  All of them give the bytes that the list which the version denotes has
at these places, whatever its tree looks like.

Main results:

- Theorem `Node.Sound.copyRange_eq`: the bytes of a range of a tree.
- Theorem `Node.Sound.byteAt?_eq`: the byte at an offset of a tree.
- Theorem `Rope.Sound.slice_eq`: the bytes of a range of a version.
- Definition `Chunks.HandsOut`: the chunks of a walk, one step after the other.
- Theorem `Rope.reads_refine_bytes`: what the three ways of reading give, and what they refuse.
-/

namespace HexEditor

namespace Node

/-- A sound tree gives the bytes of a range, by induction on the tree.  A range on both sides of
a branch is read in two parts. -/
theorem Sound.copyRange_eq {n : Node} (h : n.Sound) {lo hi : Nat} (hle : lo ≤ hi) :
    n.copyRange lo hi = (n.toBytes.drop lo).take (hi - lo) := by
  induction h generalizing lo hi with
  | leaf _ _ => rfl
  | @branch mark left right length height hl hr _ _ _ _ ihl ihr =>
      have hlength := hl.length_eq
      rw [copyRange, toBytes]
      split_ifs with hempty hleft hright
      · rw [Nat.sub_eq_zero_of_le hempty, List.take_zero]
      · rw [ihl hle, List.drop_append_of_le_length (by omega),
          List.take_append_of_le_length (by rw [List.length_drop]; omega)]
      · have hsize : hi - left.length - (lo - left.length) = hi - lo := by omega
        have hbehind : left.toBytes.drop lo = [] := List.drop_of_length_le (by omega)
        rw [ihr (by omega), hsize, List.drop_append, hbehind, List.nil_append, hlength]
      · have hfront : (left.toBytes.drop lo).length = left.length - lo := by
          rw [List.length_drop, hlength]
        have hrest : hi - lo - (left.length - lo) = hi - left.length := by omega
        have hleftover : (left.toBytes.drop lo).take (left.length - lo) = left.toBytes.drop lo :=
          List.take_of_length_le hfront.le
        have hwhole : (left.toBytes.drop lo).take (hi - lo) = left.toBytes.drop lo :=
          List.take_of_length_le (by omega)
        rw [ihl (by omega), ihr (Nat.zero_le _), List.drop_zero, Nat.sub_zero, hleftover,
          List.drop_append_of_le_length (by omega), List.take_append, hfront, hrest, hwhole]

/-- A sound tree gives the byte at an offset, by induction on the tree. -/
theorem Sound.byteAt?_eq {n : Node} (h : n.Sound) (offset : Nat) :
    n.byteAt? offset = n.toBytes[offset]? := by
  induction h generalizing offset with
  | leaf _ _ => rfl
  | @branch mark left right length height hl _ _ _ _ _ ihl ihr =>
      rw [byteAt?, toBytes, hl.length_eq]
      split_ifs with hleft
      · rw [ihl, List.getElem?_append_left hleft]
      · rw [ihr, List.getElem?_append_right (Nat.le_of_not_lt hleft)]

end Node

namespace Chunks

/-- The walk hands out these chunks, one after the other, and has come to its end then. -/
inductive HandsOut : Chunks → List Bytes → Prop where
  /-- There is no chunk left. -/
  | done {c : Chunks} (ended : c.next? = none) : HandsOut c []
  /-- There is a next chunk. -/
  | next {c rest : Chunks} {chunk : Bytes} {chunks : List Bytes}
      (found : c.next? = some (chunk, rest)) (others : HandsOut rest chunks) :
      HandsOut c (chunk :: chunks)

/-- Every walk comes to an end, because each step lowers its weight. -/
theorem handsOut_toList (c : Chunks) : c.HandsOut c.toList := by
  cases hnext : c.next? with
  | none =>
      rw [toList_of_next?_eq_none hnext]
      exact .done hnext
  | some found =>
      have hweight := weight_next hnext
      rw [toList_of_next?_eq_some hnext]
      exact .next hnext (handsOut_toList found.2)
termination_by c.weight

end Chunks

namespace Rope

/-- A version gives the bytes of a range, as far as it goes. -/
theorem Sound.read_eq {r : Rope} (h : r.Sound) {range : Range} (hle : range.start ≤ range.stop) :
    r.read range = (r.toBytes.drop range.start).take (range.stop - range.start) := by
  rcases r with ⟨root⟩
  cases root with
  | none => simp [toBytes, read]
  | some n => exact (h n rfl).copyRange_eq hle

/-- A version gives the bytes of a range that lies in it. -/
theorem Sound.slice_eq {r : Rope} (h : r.Sound) {range : Range} (hrange : r.Holds range) :
    r.slice range = .ok ((r.toBytes.drop range.start).take (range.stop - range.start)) := by
  rw [slice, if_pos hrange, h.read_eq hrange.1]

/-- A version gives the byte at an offset, if there is one. -/
theorem Sound.byteAt_eq {r : Rope} (h : r.Sound) (offset : Nat) :
    r.byteAt offset =
      match r.toBytes[offset]? with
      | some byte => .ok byte
      | none => .error (.byteAt offset r.length) := by
  rcases r with ⟨root⟩
  cases root with
  | none => rfl
  | some n =>
      have hlength : (Rope.mk (some n)).length = n.toBytes.length := h.length_eq
      have hbytes : (if offset < n.toBytes.length then n.toBytes[offset]? else none) =
          n.toBytes[offset]? := by
        split_ifs with hin
        · rfl
        · rw [List.getElem?_eq_none (Nat.le_of_not_lt hin)]
      rw [byteAt, hlength, Option.bind_some, (h n rfl).byteAt?_eq, hbytes]
      rfl

/-- Reading refines lists of bytes.  A range of a version that can come up is read at once if it
lies in the version, and refused otherwise; so is the byte at an offset.  A walk over any range
comes to an end.  It hands out chunks that are neither empty nor longer than a leaf, and together
they are the bytes of the range when both of its ends are moved back into the version. -/
theorem reads_refine_bytes {r : Rope} (h : r.Reachable) :
    (∀ range : Range, r.slice range =
      if range.start ≤ range.stop ∧ range.stop ≤ r.toBytes.length then
        .ok ((r.toBytes.drop range.start).take (range.stop - range.start))
      else .error (.slice range r.toBytes.length)) ∧
    (∀ offset, r.byteAt offset =
      match r.toBytes[offset]? with
      | some byte => .ok byte
      | none => .error (.byteAt offset r.toBytes.length)) ∧
    ∀ range : Range, ∃ chunks, (r.chunks range).HandsOut chunks ∧
      (∀ chunk ∈ chunks, 0 < chunk.length ∧ chunk.length ≤ 1024) ∧
      chunks.flatten =
        (r.toBytes.drop (min range.start r.toBytes.length)).take
          (min range.stop r.toBytes.length - min range.start r.toBytes.length) ∧
      (range.stop ≤ range.start → chunks = []) := by
  have hsound := h.sound
  have hlength := h.length_eq
  refine ⟨fun range => ?_, fun offset => ?_, fun range => ?_⟩
  · rw [← hlength]
    split_ifs with hholds
    · exact hsound.slice_eq hholds
    · exact if_neg (show ¬ r.Holds range from hholds)
  · rw [← hlength]
    exact hsound.byteAt_eq offset
  · rcases hsound.chunks_spread range with ⟨hbytes, hsizes⟩
    have hclamped : (r.chunks range).toList.flatten =
        (r.toBytes.drop (min range.start r.toBytes.length)).take
          (min range.stop r.toBytes.length - min range.start r.toBytes.length) := by
      rw [← List.drop_take, Chunks.drop_take_min]
      exact hbytes
    refine ⟨_, Chunks.handsOut_toList _, hsizes, hclamped, fun hempty => ?_⟩
    -- without bytes there is no chunk, since none of them is empty
    rw [Nat.sub_eq_zero_of_le (by omega), List.take_zero, List.flatten_eq_nil_iff] at hclamped
    rw [List.eq_nil_iff_forall_not_mem]
    intro chunk hchunk
    have hpos := (hsizes chunk hchunk).1
    rw [hclamped chunk hchunk] at hpos
    exact Nat.lt_irrefl 0 hpos

/-- So many bytes, counted up from 0 over and over again. -/
def countedBytes (n : Nat) : List UInt8 := (List.range n).map UInt8.ofNat

@[simp] theorem length_countedBytes (n : Nat) : (countedBytes n).length = n := by
  rw [countedBytes, List.length_map, List.length_range]

theorem take_countedBytes {m n : Nat} (h : m ≤ n) :
    (countedBytes n).take m = countedBytes m := by
  rw [countedBytes, ← List.map_take, List.take_range, Nat.min_eq_left h, countedBytes]

/-- Three thousand bytes take several leaves.  A range across them can be read at once, and a walk
over one that goes beyond the end hands out the rest of the bytes in more than one chunk; there
is no byte behind the last. -/
theorem reads_refine_bytes_straddling :
    (ofBytes (countedBytes 3000)).Reachable ∧
      (ofBytes (countedBytes 3000)).slice ⟨1000, 2500⟩ = .ok ((countedBytes 2500).drop 1000) ∧
      (ofBytes (countedBytes 3000)).byteAt 3000 = .error (.byteAt 3000 3000) ∧
      ∃ chunks, ((ofBytes (countedBytes 3000)).chunks ⟨1000, 9000⟩).HandsOut chunks ∧
        2 ≤ chunks.length ∧ chunks.flatten = (countedBytes 3000).drop 1000 := by
  have hreachable : (ofBytes (countedBytes 3000)).Reachable := .ofBytes _
  have hreads := reads_refine_bytes hreachable
  simp only [toBytes_ofBytes, length_countedBytes] at hreads
  rcases hreads with ⟨hslice, hbyte, hwalk⟩
  rcases hwalk ⟨1000, 9000⟩ with ⟨chunks, hchunks, hsizes, hbytes, -⟩
  have hall : ((countedBytes 3000).drop 1000).length = 2000 := by
    rw [List.length_drop, length_countedBytes]
  have hrest : chunks.flatten = (countedBytes 3000).drop 1000 := by
    rw [hbytes]
    exact List.take_of_length_le hall.le
  refine ⟨hreachable, ?_, ?_, chunks, hchunks, ?_, hrest⟩
  · have hshorter : countedBytes 2500 = (countedBytes 3000).take 2500 :=
      (take_countedBytes (by decide)).symm
    rw [hslice, if_pos (by decide), hshorter, List.drop_take]
  · rw [hbyte, List.getElem?_eq_none (length_countedBytes 3000).le]
  · -- one chunk is no longer than a leaf
    rcases chunks with _ | ⟨chunk, _ | ⟨next, others⟩⟩
    · rw [← hrest] at hall
      cases hall
    · have hsize := (hsizes chunk (List.mem_singleton.2 rfl)).2
      rw [← hrest, List.flatten_singleton] at hall
      omega
    · rw [List.length_cons, List.length_cons]
      omega

end Rope

end HexEditor
