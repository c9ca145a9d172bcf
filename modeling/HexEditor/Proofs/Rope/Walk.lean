import HexEditor.Proofs.Rope.Version

/-!
# What a walk over chunks hands out

A walk over a range of a version hands out chunks.  None of them is empty, none is
longer than a leaf, and together they are the bytes of the range, as far as the
version goes.

The subtrees on the stack of a walk say what is still to come: each of them
contributes the part of its bytes that lies in the range.

Main results:

- Definition `Chunks.bytes`: the bytes that a walk still hands out.
- Theorems `Chunks.bytes_of_next?_eq_some` and `Chunks.bytes_of_next?_eq_none`: one
  step of a walk takes the next chunk off these bytes.
- Theorem `Rope.bytes_chunks`: the walk over a range of a sound version hands out
  the bytes of the range.
-/

namespace HexEditor

namespace Chunks

/-! ## Steps of a walk -/

/-- The bytes that the walk still hands out. -/
def bytes (c : Chunks) : Bytes :=
  c.toList.flatten

/-- A walk that hands out a chunk hands out this chunk first. -/
theorem toList_of_next?_eq_some {c rest : Chunks} {chunk : Bytes}
    (h : c.next? = some (chunk, rest)) : c.toList = chunk :: rest.toList := by
  rw [toList]
  split
  · rename_i hnone
    rw [hnone] at h
    cases h
  · rename_i chunk' rest' hsome
    rw [hsome] at h
    cases h
    rfl

/-- A walk that has come to its end hands out nothing more. -/
theorem toList_of_next?_eq_none {c : Chunks} (h : c.next? = none) : c.toList = [] := by
  rw [toList]
  split
  · rfl
  · rename_i chunk' rest' hsome
    rw [hsome] at h
    cases h

/-- One step of a walk takes the chunk off the bytes that are left. -/
theorem bytes_of_next?_eq_some {c rest : Chunks} {chunk : Bytes}
    (h : c.next? = some (chunk, rest)) : c.bytes = chunk ++ rest.bytes := by
  rw [bytes, toList_of_next?_eq_some h, List.flatten_cons, bytes]

/-- No bytes are left at the end of a walk. -/
theorem bytes_of_next?_eq_none {c : Chunks} (h : c.next? = none) : c.bytes = [] := by
  rw [bytes, toList_of_next?_eq_none h, List.flatten_nil]

/-! ## The stack of a walk -/

/-- The bytes of the range that lie in the subtrees of a stack. -/
def spread (start stop : Nat) : List (Node × Nat) → Bytes
  | [] => []
  | (n, base) :: rest => (n.toBytes.take (stop - base)).drop (start - base) ++
      spread start stop rest

/-- Cutting a range out of two byte strings in a row cuts it out of both. -/
theorem drop_take_append (x y : Bytes) (start stop : Nat) :
    ((x ++ y).take stop).drop start =
      (x.take stop).drop start ++ (y.take (stop - x.length)).drop (start - x.length) := by
  rw [List.take_append, List.drop_append, List.length_take]
  rcases Nat.le_total x.length stop with hle | hle
  · rw [Nat.min_eq_right hle]
  · rw [Nat.sub_eq_zero_of_le hle, List.take_zero, List.drop_nil, List.drop_nil]

/-- A subtree in front of the range or behind it contributes nothing. -/
theorem drop_take_eq_nil {x : Bytes} {base start stop : Nat}
    (h : base + x.length ≤ start ∨ stop ≤ base) :
    (x.take (stop - base)).drop (start - base) = [] := by
  rw [List.drop_eq_nil_iff, List.length_take]
  omega

/-- Moving the ends of a range back to the end of the bytes cuts out the same
bytes. -/
theorem drop_take_min (x : Bytes) (start stop : Nat) :
    (x.take (min stop x.length)).drop (min start x.length) = (x.take stop).drop start := by
  have htake : x.take (min stop x.length) = x.take stop := by
    rw [List.take_eq_take_iff]
    omega
  rw [htake]
  rcases Nat.le_total start x.length with hle | hle
  · rw [Nat.min_eq_left hle]
  · rw [List.drop_of_length_le (by rw [List.length_take]; omega),
      List.drop_of_length_le (by rw [List.length_take]; omega)]

/-- Cutting out of a leaf what lies in the range takes the contribution of the
leaf. -/
theorem take_drop_leaf (x : Bytes) (base start stop : Nat) :
    (x.drop (max base start - base)).take
        (min (base + x.length) stop - base - (max base start - base)) =
      (x.take (stop - base)).drop (start - base) := by
  have hskip : max base start - base = start - base := by omega
  rw [List.drop_take, hskip, List.take_eq_take_iff, List.length_drop]
  omega

/-- What the next step of a walk does to its stack: a chunk that is neither empty
nor longer than a leaf is taken off the contributions of the stack, and without
one there are no contributions. -/
theorem nextFrom_spread {start stop : Nat} (hproper : start < stop)
    {stack : List (Node × Nat)} (hsound : ∀ e ∈ stack, e.1.Sound) :
    (nextFrom start stop stack = none → spread start stop stack = []) ∧
      ∀ chunk rest, nextFrom start stop stack = some (chunk, rest) →
        spread start stop stack = chunk ++ spread start stop rest ∧
          0 < chunk.length ∧ chunk.length ≤ leafCapacity ∧ ∀ e ∈ rest, e.1.Sound := by
  fun_induction nextFrom start stop stack with
  | case1 =>
      constructor
      · intro _
        rfl
      · intro chunk rest h
        cases h
  | case2 n base rest houtside ih =>
      have hn := hsound (n, base) List.mem_cons_self
      rw [hn.length_eq] at houtside
      rw [spread, drop_take_eq_nil houtside, List.nil_append]
      exact ih fun e he => hsound e (List.mem_cons_of_mem _ he)
  | case3 base rest mark bytes skipped upTo hinside =>
      have hn := hsound (.leaf mark bytes, base) List.mem_cons_self
      rw [Node.length_leaf] at hinside
      constructor
      · intro h
        cases h
      · intro chunk rest' h
        cases h
        have hfilled : 0 < bytes.length ∧ bytes.length ≤ leafCapacity := by
          cases hn with
          | leaf hpos hfits => exact ⟨hpos, hfits⟩
        refine ⟨?_, ?_, ?_, fun e he => hsound e (List.mem_cons_of_mem _ he)⟩
        · rw [spread, take_drop_leaf]
          rfl
        · rw [List.length_take, List.length_drop]
          omega
        · rw [List.length_take, List.length_drop]
          omega
  | case4 base rest mark l r length height hinside ih =>
      have hn := hsound (.branch mark l r length height, base) List.mem_cons_self
      rcases Node.sound_branch_iff.1 hn with ⟨hl, hr, -⟩
      have hopened : spread start stop ((.branch mark l r length height, base) :: rest) =
          spread start stop ((l, base) :: (r, base + l.length) :: rest) := by
        rw [spread, spread, spread, Node.toBytes, drop_take_append, hl.length_eq,
          List.append_assoc, Nat.sub_add_eq, Nat.sub_add_eq]
      rw [hopened]
      apply ih
      intro e he
      rcases List.mem_cons.1 he with rfl | he
      · exact hl
      · rcases List.mem_cons.1 he with rfl | he
        · exact hr
        · exact hsound e (List.mem_cons_of_mem _ he)

/-- The chunks that a walk hands out are neither empty nor longer than a leaf, and
together they are the contributions of its stack. -/
theorem toList_spread {c : Chunks} (hproper : c.start < c.stop)
    (hsound : ∀ e ∈ c.stack, e.1.Sound) :
    c.bytes = spread c.start c.stop c.stack ∧
      ∀ chunk ∈ c.toList, 0 < chunk.length ∧ chunk.length ≤ leafCapacity := by
  rcases nextFrom_spread hproper hsound with ⟨hnone, hsome⟩
  cases hnext : nextFrom c.start c.stop c.stack with
  | none =>
      have hend : c.next? = none := by rw [next?, hnext, Option.map_none]
      rw [bytes_of_next?_eq_none hend, toList_of_next?_eq_none hend, hnone hnext]
      exact ⟨rfl, fun chunk hchunk => by cases hchunk⟩
  | some found =>
      rcases found with ⟨chunk, stack⟩
      have hstep : c.next? = some (chunk, { c with stack }) := by
        rw [next?, hnext, Option.map_some]
      have hweight := weight_next hstep
      rcases hsome chunk stack hnext with ⟨hspread, hpos, hfits, hrest⟩
      rcases toList_spread (c := { c with stack }) hproper hrest with ⟨hbytes, hchunks⟩
      constructor
      · rw [bytes_of_next?_eq_some hstep, hbytes, hspread]
      · rw [toList_of_next?_eq_some hstep]
        intro chunk' hchunk'
        rcases List.mem_cons.1 hchunk' with rfl | hchunk'
        · exact ⟨hpos, hfits⟩
        · exact hchunks chunk' hchunk'
termination_by c.weight

end Chunks

namespace Rope

/-! ## Walks over a version -/

/-- The walk over a range of a sound version hands out the bytes of the range, as
far as the version goes, in chunks that are neither empty nor longer than a leaf. -/
theorem Sound.chunks_spread {r : Rope} (h : r.Sound) (range : Range) :
    (r.chunks range).bytes = (r.toBytes.take range.stop).drop range.start ∧
      ∀ chunk ∈ (r.chunks range).toList, 0 < chunk.length ∧ chunk.length ≤ leafCapacity := by
  rcases r with ⟨root⟩
  cases root with
  | none =>
      have hend : ((Rope.mk none).chunks range).next? = none := by
        rw [Rope.chunks, Chunks.over, Chunks.next?, Chunks.nextFrom, Option.map_none]
      rw [Chunks.bytes_of_next?_eq_none hend, Chunks.toList_of_next?_eq_none hend,
        toBytes_root_none, List.take_nil, List.drop_nil]
      exact ⟨rfl, fun chunk hchunk => by cases hchunk⟩
  | some n =>
      have hn := h n rfl
      have hclamped := Chunks.drop_take_min n.toBytes range.start range.stop
      rw [← hn.length_eq] at hclamped
      rw [toBytes_root_some, ← hclamped]
      by_cases hproper : min range.start n.length < min range.stop n.length
      · have hwalk : (Rope.mk (some n)).chunks range =
            ⟨[(n, 0)], min range.start n.length, min range.stop n.length⟩ := by
          simp only [Rope.chunks, Chunks.over, if_pos hproper]
        rw [hwalk]
        have hstack : ∀ e ∈ [(n, 0)], e.1.Sound := by
          intro e he
          rw [List.mem_singleton.1 he]
          exact hn
        rcases Chunks.toList_spread (c := ⟨[(n, 0)], _, _⟩) hproper hstack with
          ⟨hbytes, hchunks⟩
        refine ⟨?_, hchunks⟩
        rw [hbytes, Chunks.spread, Chunks.spread, List.append_nil, Nat.sub_zero, Nat.sub_zero]
      · have hwalk : (Rope.mk (some n)).chunks range =
            ⟨[], min range.start n.length, min range.stop n.length⟩ := by
          simp only [Rope.chunks, Chunks.over, if_neg hproper]
        have hend : ((Rope.mk (some n)).chunks range).next? = none := by
          rw [hwalk, Chunks.next?, Chunks.nextFrom, Option.map_none]
        rw [Chunks.bytes_of_next?_eq_none hend, Chunks.toList_of_next?_eq_none hend]
        refine ⟨?_, fun chunk hchunk => by cases hchunk⟩
        rw [eq_comm, List.drop_eq_nil_iff, List.length_take]
        omega

/-- The walk over a range of a sound version hands out the bytes of the range, as
far as the version goes. -/
theorem Sound.bytes_chunks {r : Rope} (h : r.Sound) (range : Range) :
    (r.chunks range).bytes = (r.toBytes.take range.stop).drop range.start :=
  (h.chunks_spread range).1

end Rope

end HexEditor
