import HexEditor.Proofs.Rope.Rotation

/-!
# Versions that can come up

Versions come from loading bytes and from replacing ranges of earlier versions,
in any number of steps.  Whatever tree these steps have led to, a version behaves
as the list of its bytes, and its tree is balanced.

Main results:

- Definition `Rope.Reachable` and theorem `Rope.Reachable.sound`: the versions that
  can come up, and the invariant of their trees.
- Theorem `Rope.splice_refines_bytes`: loading and editing refine lists of bytes.
- Theorem `Rope.reachable_balanced`: the trees are balanced, rotations find their
  branches, and the height is logarithmic in the number of leaves.
- Theorem `Rope.leafCount_empty_lt_fib`: the version without bytes has fewer leaves
  than that bound asks for, so it is excepted.
-/

namespace HexEditor

namespace Rope

/-! ## Reachable versions -/

/-- The versions that loading and splicing lead to, each splice starting from any
version that has been reached.  Marking a version may happen at any time. -/
inductive Reachable : Rope → Prop where
  /-- The version without bytes. -/
  | empty : Reachable .empty
  /-- A version loaded from bytes. -/
  | ofBytes (bytes : Bytes) : Reachable (.ofBytes bytes)
  /-- A version with a range replaced. -/
  | splice {r s : Rope} {range : Range} {replacement : Bytes} (reachable : Reachable r)
      (spliced : r.splice range replacement = .ok s) : Reachable s
  /-- A version with its new nodes marked. -/
  | complete {r : Rope} (version : Nat) (reachable : Reachable r) :
      Reachable (r.complete version)

/-- A range is refused exactly when its ends are exchanged or it goes beyond the
version. -/
theorem splice_error_iff {r : Rope} {range : Range} {replacement : Bytes} :
    r.splice range replacement = .error (.splice range r.length) ↔
      range.stop < range.start ∨ r.length < range.stop := by
  constructor
  · intro herror
    by_contra hrange
    have hholds : r.Holds range := ⟨by omega, by omega⟩
    by_cases hidle : (range.isEmpty && replacement.isEmpty) = true
    · rw [splice_idle hholds hidle] at herror
      cases herror
    · rw [splice_eq_join hholds hidle] at herror
      cases herror
  · intro hrange
    have hrefused : ¬ r.Holds range := by
      intro hholds
      have hordered := hholds.1
      have hwithin := hholds.2
      omega
    unfold Rope.splice
    rw [if_neg hrefused]

/-- A splice that succeeds has been given a range within the version. -/
theorem holds_of_splice_ok {r s : Rope} {range : Range} {replacement : Bytes}
    (h : r.splice range replacement = .ok s) : r.Holds range := by
  by_contra hrange
  unfold Rope.splice at h
  rw [if_neg hrange] at h
  cases h

/-- Every version that can come up is sound. -/
theorem Reachable.sound {r : Rope} (h : r.Reachable) : r.Sound := by
  induction h with
  | empty => exact sound_empty
  | ofBytes bytes => exact sound_ofBytes bytes
  | splice _ hspliced ih =>
      rcases ih.splice (holds_of_splice_ok hspliced) _ with ⟨s, hs, hsound, -⟩
      rw [hspliced] at hs
      cases hs
      exact hsound
  | complete version _ ih => exact ih.complete version

/-- A version that can come up records the number of its bytes. -/
theorem Reachable.length_eq {r : Rope} (h : r.Reachable) : r.length = r.toBytes.length :=
  h.sound.length_eq

/-- A range that lies in a version that can come up can be replaced, which leads to
another such version. -/
theorem Reachable.exists_splice {r : Rope} (h : r.Reachable) {range : Range}
    (hrange : r.Holds range) (replacement : Bytes) :
    ∃ s, r.splice range replacement = .ok s ∧ s.Reachable ∧
      s.toBytes = r.toBytes.take range.start ++ replacement ++ r.toBytes.drop range.stop := by
  rcases h.sound.splice hrange replacement with ⟨s, hs, -, hbytes⟩
  exact ⟨s, hs, h.splice hs, hbytes⟩

/-! ## Refinement of lists of bytes -/

/-- Versions refine lists of bytes.  Loading denotes the bytes that are loaded.  A
version that has come up in any way has the length of the list it denotes; a
splice of it replaces the range in that list if the range lies in it, and is
refused otherwise. -/
theorem splice_refines_bytes :
    (∀ bytes : Bytes, (ofBytes bytes).toBytes = bytes) ∧
      ∀ r : Rope, r.Reachable →
        r.length = r.toBytes.length ∧
        ∀ (range : Range) (replacement : Bytes),
          (range.start ≤ range.stop → range.stop ≤ r.toBytes.length →
            ∃ s, r.splice range replacement = .ok s ∧ s.Reachable ∧
              s.toBytes =
                r.toBytes.take range.start ++ replacement ++ r.toBytes.drop range.stop) ∧
          (r.splice range replacement = .error (.splice range r.toBytes.length) ↔
            range.stop < range.start ∨ r.toBytes.length < range.stop) := by
  refine ⟨toBytes_ofBytes, ?_⟩
  intro r hr
  have hlength := hr.length_eq
  refine ⟨hlength, ?_⟩
  intro range replacement
  rw [← hlength]
  refine ⟨?_, splice_error_iff⟩
  intro hordered hwithin
  exact hr.exists_splice ⟨hordered, hwithin⟩ replacement

/-- Two bytes in the middle of four can be replaced by three. -/
theorem splice_refines_bytes_middle :
    (ofBytes [1, 2, 3, 4]).Reachable ∧
      ∃ s, (ofBytes [1, 2, 3, 4]).splice ⟨1, 3⟩ [7, 8, 9] = .ok s ∧ s.Reachable ∧
        s.toBytes = [1, 7, 8, 9, 4] := by
  have hreachable : (ofBytes [1, 2, 3, 4]).Reachable := .ofBytes _
  have hsplice := ((splice_refines_bytes.2 _ hreachable).2 ⟨1, 3⟩ [7, 8, 9]).1
  simp only [toBytes_ofBytes] at hsplice
  exact ⟨hreachable, hsplice (by decide) (by decide)⟩

/-! ## Balance -/

/-- The tree of a version that can come up is sound, and it is missing exactly when
there are no bytes.  Loading and editing never lack a branch that a rotation takes
apart.  A version with bytes has at least as many leaves as the sparsest balanced
tree of its height, so the height is logarithmic in the number of leaves. -/
theorem reachable_balanced {r : Rope} (h : r.Reachable) :
    r.Sound ∧ (r.root = none ↔ r.toBytes = []) ∧
      (∀ bytes, ofBytesChecked bytes = some (ofBytes bytes)) ∧
      (∀ range replacement,
        r.spliceChecked range replacement = some (r.splice range replacement)) ∧
      (r.toBytes ≠ [] → Nat.fib (r.height + 1) ≤ r.leafCount) ∧
      r.height ≤ 2 * Nat.log 2 r.leafCount + 1 := by
  have hsound := h.sound
  refine ⟨hsound, hsound.root_eq_none_iff, ofBytesChecked_eq, spliceChecked_eq hsound, ?_⟩
  rcases r with ⟨root⟩
  cases root with
  | none => exact ⟨fun hbytes => absurd rfl hbytes, Nat.zero_le _⟩
  | some n => exact ⟨fun _ => (hsound n rfl).fib_le_leafCount, (hsound n rfl).height_le_log⟩

/-- Five thousand bytes fill the leaves of a balanced tree. -/
theorem reachable_balanced_loaded :
    (ofBytes (List.replicate 5000 0)).Reachable ∧
      (ofBytes (List.replicate 5000 0)).Sound ∧
      Nat.fib ((ofBytes (List.replicate 5000 0)).height + 1) ≤
        (ofBytes (List.replicate 5000 0)).leafCount := by
  have hreachable : (ofBytes (List.replicate 5000 0)).Reachable := .ofBytes _
  rcases reachable_balanced hreachable with ⟨hsound, -, -, -, hfib, -⟩
  refine ⟨hreachable, hsound, hfib ?_⟩
  rw [toBytes_ofBytes, List.replicate_succ]
  exact List.cons_ne_nil _ _

/-- The version without bytes has no leaf, while the smallest Fibonacci number of a
height is one. -/
theorem leafCount_empty_lt_fib :
    empty.Reachable ∧ empty.leafCount < Nat.fib (empty.height + 1) :=
  ⟨.empty, Nat.one_pos⟩

end Rope

end HexEditor
