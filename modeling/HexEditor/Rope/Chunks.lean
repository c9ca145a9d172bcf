import HexEditor.Rope.Node

/-!
# Walking the chunks of a range

The bytes of a range are handed out chunk by chunk, in order and without copying
more than one leaf at a time.  The walk keeps the subtrees that it has not yet
entered, each with the offset at which it begins.

Main definitions:

- `Chunks` is the state of a walk and `Chunks.over` begins one.
- `Chunks.next?` hands out the next chunk and the rest of the walk.
- `Chunks.weight` bounds what is left to walk, so that loops over chunks end.
-/

namespace HexEditor

/-- A walk over the bytes from `start` up to `stop`.  The head of the stack is
the subtree that comes next. -/
structure Chunks where
  /-- Subtrees still to be entered, with the offsets at which they begin. -/
  stack : List (Node × Nat)
  /-- The first offset that is handed out. -/
  start : Nat
  /-- The first offset that is not handed out any more. -/
  stop : Nat

/-- A bound for the steps of a walk through a tree that also exceeds its number
of bytes. -/
def Node.weight : Node → Nat
  | leaf _ bytes => bytes.length + 1
  | branch _ left right .. => left.weight + right.weight + 1

/-- The walk over part of a tree, with both ends of the range clamped to its
length. -/
def Chunks.over (root : Option Node) (start stop : Nat) : Chunks :=
  match root with
  | none => ⟨[], 0, 0⟩
  | some n =>
    let start := min start n.length
    let stop := min stop n.length
    ⟨if start < stop then [(n, 0)] else [], start, stop⟩

namespace Chunks

/-- The weight of a stack of subtrees. -/
def stackWeight : List (Node × Nat) → Nat
  | [] => 0
  | (n, _) :: rest => n.weight + stackWeight rest

/-- A bound for what is left of the walk. -/
def weight (c : Chunks) : Nat :=
  stackWeight c.stack

/-- Find the next leaf that meets the range.  The answer is the part of it inside
the range, and the subtrees behind it. -/
def nextFrom (start stop : Nat) :
    List (Node × Nat) → Option (Bytes × List (Node × Nat))
  | [] => none
  | (n, base) :: rest =>
    if base + n.length ≤ start ∨ stop ≤ base then nextFrom start stop rest
    else
      match n with
      | .leaf _ bytes =>
        let skipped := max base start - base
        let upTo := min (base + bytes.length) stop - base
        some ((bytes.drop skipped).take (upTo - skipped), rest)
      | .branch _ left right .. =>
        nextFrom start stop ((left, base) :: (right, base + left.length) :: rest)
termination_by stack => stackWeight stack
decreasing_by
  · cases n <;> simp only [stackWeight, Node.weight] <;> omega
  · simp only [stackWeight, Node.weight]; omega

/-- The next chunk of the range and the rest of the walk, if there is a chunk
left. -/
def next? (c : Chunks) : Option (Bytes × Chunks) :=
  (nextFrom c.start c.stop c.stack).map fun (bytes, stack) => (bytes, { c with stack })

/-- Handing out a chunk lowers the weight by more than the length of the
chunk. -/
theorem stackWeight_nextFrom {start stop : Nat} {stack rest : List (Node × Nat)}
    {bytes : Bytes} (h : nextFrom start stop stack = some (bytes, rest)) :
    bytes.length + stackWeight rest < stackWeight stack := by
  fun_induction nextFrom start stop stack with
  | case1 => simp at h
  | case2 n base tail _ ih =>
    have := ih h
    simp only [stackWeight]
    omega
  | case3 base tail m chunk _ skipped upTo =>
    simp only [Option.some.injEq, Prod.mk.injEq] at h
    obtain ⟨rfl, rfl⟩ := h
    simp only [stackWeight, Node.weight, List.length_drop, List.length_take]
    omega
  | case4 base tail m left right _ _ _ ih =>
    have := ih h
    simp only [stackWeight, Node.weight] at this ⊢
    omega

/-- A step of the walk lowers its weight by more than the length of the chunk. -/
theorem weight_next {c rest : Chunks} {bytes : Bytes} (h : c.next? = some (bytes, rest)) :
    bytes.length + rest.weight < c.weight := by
  simp only [next?, Option.map_eq_some_iff] at h
  obtain ⟨⟨chunk, stack⟩, hnext, heq⟩ := h
  simp only [Prod.mk.injEq] at heq
  obtain ⟨rfl, rfl⟩ := heq
  exact stackWeight_nextFrom hnext

/-- All chunks that are left, in order. -/
def toList (c : Chunks) : List Bytes :=
  match _h : c.next? with
  | none => []
  | some (bytes, rest) => bytes :: rest.toList
termination_by c.weight
decreasing_by have := weight_next ‹_›; omega

end Chunks

end HexEditor
