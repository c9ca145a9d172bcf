import HexEditor.Proofs.Rope.Balance

/-!
# The identity of versions

Whether two versions are the very same is read off the marks of their roots.  Among the
versions that carry marks this is an equivalence.

Main results:

- Theorems `Rope.sameVersion_symm`, `Rope.sameVersion_trans` and
  `Rope.sameVersion_complete`: being the same version is an equivalence of the versions that
  are complete.
-/

namespace HexEditor

namespace Node

/-- The root of a tree that has been marked carries a mark. -/
theorem isSome_mark_stamp (version : Nat) (n : Node) (next : Nat) :
    (stamp version n next).1.mark.isSome = true := by
  cases n with
  | leaf mark bytes => cases mark <;> rfl
  | branch mark left right length height => cases mark <;> rfl

end Node

namespace Rope

variable {r s t : Rope}

theorem sameVersion_iff :
    r.sameVersion s = true ↔
      (r.root = none ∧ s.root = none) ∨
        ∃ m n mark, r.root = some m ∧ s.root = some n ∧ m.mark = some mark ∧
          n.mark = some mark := by
  rcases r with ⟨_ | m⟩ <;> rcases s with ⟨_ | n⟩
  · simp [sameVersion]
  · simp [sameVersion]
  · simp [sameVersion]
  · rcases hm : m.mark with _ | mark
    · simp [sameVersion, hm]
    · simpa [sameVersion, hm] using eq_comm

theorem sameVersion_symm (h : r.sameVersion s = true) : s.sameVersion r = true := by
  rw [sameVersion_iff] at h ⊢
  rcases h with ⟨hr, hs⟩ | ⟨m, n, mark, hr, hs, hm, hn⟩
  · exact .inl ⟨hs, hr⟩
  · exact .inr ⟨n, m, mark, hs, hr, hn, hm⟩

theorem sameVersion_trans (h : r.sameVersion s = true) (h' : s.sameVersion t = true) :
    r.sameVersion t = true := by
  rw [sameVersion_iff] at h h' ⊢
  rcases h with ⟨hr, hs⟩ | ⟨m, n, mark, hr, hs, hm, hn⟩
  · rcases h' with ⟨-, ht⟩ | ⟨n', o, mark', hs', -⟩
    · exact .inl ⟨hr, ht⟩
    · rw [hs] at hs'
      cases hs'
  · rcases h' with ⟨hs', -⟩ | ⟨n', o, mark', hs', ht, hn', ho⟩
    · rw [hs] at hs'
      cases hs'
    · rw [hs] at hs'
      cases hs'
      rw [hn] at hn'
      cases hn'
      exact .inr ⟨m, o, mark, hr, ht, hm, ho⟩

/-- A version that has been completed is itself. -/
theorem sameVersion_complete (version : Nat) (r : Rope) :
    (r.complete version).sameVersion (r.complete version) = true := by
  rcases r with ⟨_ | n⟩
  · rfl
  · rcases Option.isSome_iff_exists.1 (n.isSome_mark_stamp version 0) with ⟨mark, hmark⟩
    exact sameVersion_iff.2 (.inr ⟨_, _, mark, rfl, rfl, hmark, hmark⟩)

end Rope

end HexEditor
