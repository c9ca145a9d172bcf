import HexEditor.Proofs.Rope.Marked

/-!
# New versions

An edit that puts bytes in makes a new root, however few nodes it adds, and a new root has no mark
until its version is completed.  Then it gets a mark of that version.  So what such an edit leads to
is never the same version as one that was completed before, not even if it holds the same bytes.  An
edit that does nothing makes no root, and completing leaves what has a mark already.

Main results:

- Theorem `Node.mark_join`: trees are joined under a new root.
- Definition `Rope.Unmarked` and theorem `Rope.unmarked_splice`: an edit that puts bytes in makes a
  new root.
- Definition `Rope.Since` and theorem `Rope.Filed.sameVersion_eq_false`: versions that were
  completed later are other ones.
- Theorem `Rope.complete_of_sameVersion`: what is complete stays as it is.
-/

namespace HexEditor

namespace Node

/-! ## New roots -/

theorem mark_rotateLeft {n : Node} (h : n.mark = none) : n.rotateLeft.mark = none := by
  unfold rotateLeft
  split
  · simp [pair, mark]
  · exact h

theorem mark_rotateRight {n : Node} (h : n.mark = none) : n.rotateRight.mark = none := by
  unfold rotateRight
  split
  · simp [pair, mark]
  · exact h

theorem mark_pair (l r : Node) : (pair l r).mark = none := by
  simp [pair, mark]

/-- Two trees that are put side by side get a new root, also if it is rotated. -/
theorem mark_balance (l r : Node) : (balance l r).mark = none := by
  unfold balance
  split_ifs
  · exact mark_rotateRight (mark_pair _ _)
  · exact mark_rotateRight (mark_pair _ _)
  · exact mark_rotateLeft (mark_pair _ _)
  · exact mark_rotateLeft (mark_pair _ _)
  · exact mark_pair _ _

/-- Trees are joined under a new root. -/
theorem mark_join (a b : Node) : (join a b).mark = none := by
  unfold join
  split
  · split_ifs
    · exact mark_pair _ _
    · simp [ofChunk, mark]
  · exact mark_balance _ _
  · exact mark_balance _ _
  · split_ifs
    · exact mark_balance _ _
    · exact mark_balance _ _
    · exact mark_pair _ _

theorem mark_build (bytes : Bytes) : (build bytes).mark = none := by
  unfold build
  split_ifs
  · simp [ofChunk, mark]
  · exact mark_balance _ _

/-- A new root gets the first mark of its version. -/
theorem mark_stamp {n : Node} (h : n.mark = none) (version next : Nat) :
    (stamp version n next).1.mark = some ⟨version, next⟩ := by
  cases n with
  | leaf k bytes =>
      cases h
      simp [stamp, mark]
  | branch k left right length height =>
      cases h
      simp [stamp, mark]

/-- A root that has a mark closes the walk at once. -/
theorem stamp_of_isSome {n : Node} (h : n.mark.isSome) (version next : Nat) :
    stamp version n next = (n, next) := by
  cases n with
  | leaf k bytes => cases k <;> simp_all [stamp, mark]
  | branch k left right length height => cases k <;> simp_all [stamp, mark]

end Node

namespace Rope

variable {r s : Rope} {content : Mark → Bytes} {version version' : Nat}

/-! ## New versions -/

/-- The version holds bytes under a root that has no mark yet. -/
def Unmarked (r : Rope) : Prop :=
  ∃ n ∈ r.root, n.mark = none

/-- The version was completed under the given number or a later one. -/
def Since (version : Nat) (r : Rope) : Prop :=
  ∃ n ∈ r.root, ∃ mark ∈ n.mark, version ≤ mark.version

theorem Since.mono (h : r.Since version) (hle : version' ≤ version) : r.Since version' := by
  obtain ⟨n, hn, mark, hmark, hversion⟩ := h
  exact ⟨n, hn, mark, hmark, hle.trans hversion⟩

/-- Putting bytes in makes a new root. -/
theorem unmarked_splice {range : Range} {replacement : Bytes} (hreplacement : replacement ≠ [])
    (hs : r.splice range replacement = .ok s) : s.Unmarked := by
  have hbuilt : Node.build? replacement = some (Node.build replacement) := by
    simp [Node.build?, hreplacement]
  -- the new tree is joined with what is left on either side
  have hjoined : ∀ before after : Option Node, ∃ n,
      Node.join? (Node.join? before (some (Node.build replacement))) after = some n ∧
        n.mark = none := by
    intro before after
    cases before with
    | none =>
        cases after with
        | none => exact ⟨_, rfl, Node.mark_build _⟩
        | some b => exact ⟨_, rfl, Node.mark_join _ _⟩
    | some a =>
        cases after with
        | none => exact ⟨_, rfl, Node.mark_join _ _⟩
        | some b => exact ⟨_, rfl, Node.mark_join _ _⟩
  unfold splice at hs
  split_ifs at hs with hholds hidle
  · simp [hreplacement] at hidle
  · cases hs
    rw [hbuilt]
    exact hjoined _ _

/-- Completing a version with a new root. -/
theorem Unmarked.complete (h : r.Unmarked) (version : Nat) : (r.complete version).Since version := by
  obtain ⟨n, hn, hmark⟩ := h
  refine ⟨_, ?_, _, Node.mark_stamp hmark version 0, Nat.le_refl _⟩
  simp [Rope.complete, Option.mem_def.1 hn]

/-- A version that is on record was completed earlier, so it is another one. -/
theorem Filed.sameVersion_eq_false (h : r.Filed content version) (hs : s.Since version) :
    r.sameVersion s = false := by
  rw [← Bool.not_eq_true, sameVersion_iff]
  obtain ⟨n, hn, mark, hmark, hlater⟩ := hs
  rintro (⟨-, hnone⟩ | ⟨m, n', mark', hm, hn', hmark', hsame⟩)
  · simp_all
  · obtain rfl : n = n' := by simp_all
    obtain rfl : mark = mark' := by simp_all
    have hearlier := ((h m hm).root hmark').1
    omega

/-- What is complete stays as it is. -/
theorem complete_of_sameVersion (h : r.sameVersion r = true) (version : Nat) :
    r.complete version = r := by
  obtain ⟨root⟩ := r
  cases root with
  | none => rfl
  | some n =>
      have hmark : n.mark.isSome := by
        simp_all [sameVersion]
      simp [complete, Node.stamp_of_isSome hmark]

end Rope

end HexEditor
