import HexEditor.Proofs.Rope.Identity

/-!
# What a mark stands for

Every mark stands for certain bytes: those below the node that carries it.  Editing makes
nodes without marks and takes over marked ones as they are, and completing a version gives
out marks that no node has carried before.  So in all versions that come up, nodes with the
same mark hold the same bytes.

Main results:

- Definition `Node.EachMark`: what all marks of a tree and the bytes below them have in
  common.  It is kept by everything that puts trees together or cuts them.
- Definition `Node.Recorded` and theorem `Node.Recorded.exists_stamp`: the marks that are
  given out can be entered into a record of what marks stand for.
- Definition `Rope.Filed` and theorems `Rope.Filed.splice` and `Rope.Filed.complete`:
  versions whose marks are on record.
- Theorem `Rope.Filed.toBytes_eq_of_sameVersion`: the same version holds the same bytes.
-/

namespace HexEditor

/-- The mark has been given out before the one with that version and index. -/
def Mark.Precedes (mark : Mark) (version index : Nat) : Prop :=
  mark.version < version ∨ mark.version = version ∧ mark.index < index

theorem Mark.Precedes.mono {mark : Mark} {version index index' : Nat}
    (h : mark.Precedes version index) (hle : index ≤ index') : mark.Precedes version index' := by
  rcases h with hversion | ⟨hversion, hindex⟩
  · exact .inl hversion
  · exact .inr ⟨hversion, Nat.lt_of_lt_of_le hindex hle⟩

theorem Mark.not_precedes (version index : Nat) :
    ¬ (Mark.mk version index).Precedes version index := by
  rintro (hversion | ⟨-, hindex⟩)
  · exact Nat.lt_irrefl _ hversion
  · exact Nat.lt_irrefl _ hindex

namespace Node

/-! ## All marks of a tree -/

/-- Every mark in the tree has the property, together with the bytes below the node that
carries it. -/
def EachMark (P : Mark → Bytes → Prop) : Node → Prop
  | leaf mark bytes => ∀ k ∈ mark, P k bytes
  | branch mark left right _ _ =>
    (∀ k ∈ mark, P k (left.toBytes ++ right.toBytes)) ∧ left.EachMark P ∧ right.EachMark P

variable {P Q : Mark → Bytes → Prop}

theorem EachMark.mono {n : Node} (h : n.EachMark P) (hPQ : ∀ k bytes, P k bytes → Q k bytes) :
    n.EachMark Q := by
  induction n with
  | leaf mark bytes => exact fun k hk => hPQ k _ (h k hk)
  | branch mark left right length height ihl ihr =>
      exact ⟨fun k hk => hPQ k _ (h.1 k hk), ihl h.2.1, ihr h.2.2⟩

/-- The mark of the root stands for all bytes of the tree. -/
theorem EachMark.root {n : Node} (h : n.EachMark P) {k : Mark} (hk : n.mark = some k) :
    P k n.toBytes := by
  cases n with
  | leaf mark bytes => exact h k hk
  | branch mark left right length height => exact h.1 k hk

/-! ## Putting together and cutting -/

theorem eachMark_ofChunk (bytes : Bytes) : (ofChunk bytes).EachMark P := by
  intro k hk
  cases hk

theorem EachMark.pair {l r : Node} (hl : l.EachMark P) (hr : r.EachMark P) :
    (pair l r).EachMark P := by
  refine ⟨?_, hl, hr⟩
  intro k hk
  cases hk

theorem EachMark.rotateLeft {n : Node} (h : n.EachMark P) : n.rotateLeft.EachMark P := by
  cases n with
  | leaf mark bytes => exact h
  | branch mark a r length height =>
      cases r with
      | leaf mark' bytes => exact h
      | branch mark' b c length' height' =>
          rcases h with ⟨-, ha, -, hb, hc⟩
          exact (ha.pair hb).pair hc

theorem EachMark.rotateRight {n : Node} (h : n.EachMark P) : n.rotateRight.EachMark P := by
  cases n with
  | leaf mark bytes => exact h
  | branch mark l c length height =>
      cases l with
      | leaf mark' bytes => exact h
      | branch mark' a b length' height' =>
          rcases h with ⟨-, ⟨-, ha, hb⟩, hc⟩
          exact ha.pair (hb.pair hc)

theorem EachMark.balance {l r : Node} (hl : l.EachMark P) (hr : r.EachMark P) :
    (balance l r).EachMark P := by
  unfold Node.balance
  split_ifs
  · exact (hl.rotateLeft.pair hr).rotateRight
  · exact (hl.pair hr).rotateRight
  · exact (hl.pair hr.rotateRight).rotateLeft
  · exact (hl.pair hr).rotateLeft
  · exact hl.pair hr

/-- Joining takes marked nodes over as they are. -/
theorem EachMark.join {a b : Node} (ha : a.EachMark P) (hb : b.EachMark P) :
    (join a b).EachMark P := by
  fun_induction Node.join a b with
  | case1 m x m' y => exact ha.pair hb
  | case2 m x m' y => exact eachMark_ofChunk _
  | case3 m x m' bl br length height ih => exact (ih ha hb.2.1).balance hb.2.2
  | case4 m al ar length height m' y ih => exact ha.2.1.balance (ih ha.2.2 hb)
  | case5 m al ar an ah m' bl br bn bh _ ih => exact ha.2.1.balance (ih ha.2.2 hb)
  | case6 m al ar an ah m' bl br bn bh _ _ ih => exact (ih ha hb.2.1).balance hb.2.2
  | case7 => exact ha.pair hb

theorem eachMark_join? {a b : Option Node} (ha : ∀ n ∈ a, n.EachMark P)
    (hb : ∀ n ∈ b, n.EachMark P) : ∀ n ∈ join? a b, n.EachMark P := by
  cases a with
  | none => exact hb
  | some m =>
      cases b with
      | none => exact ha
      | some n =>
          intro joined hjoined
          cases hjoined
          exact (ha m rfl).join (hb n rfl)

theorem eachMark_chunk? (bytes : Bytes) : ∀ n ∈ chunk? bytes, n.EachMark P := by
  intro n hn
  unfold chunk? at hn
  split_ifs at hn
  · cases hn
  · cases hn
    exact eachMark_ofChunk bytes

/-- Cutting takes marked nodes over as they are. -/
theorem EachMark.split {n : Node} (h : n.EachMark P) (k : Nat) :
    (∀ m ∈ (n.split k).1, m.EachMark P) ∧ ∀ m ∈ (n.split k).2, m.EachMark P := by
  fun_induction Node.split n k with
  | case1 n => exact ⟨by simp, by simpa using h⟩
  | case2 n k => exact ⟨by simpa using h, by simp⟩
  | case3 k _ mark bytes _ => exact ⟨eachMark_chunk? _, eachMark_chunk? _⟩
  | case4 k _ mark l r length height hk a b heq _ ih =>
      have hcut := ih h.2.1
      rw [heq] at hcut
      exact ⟨hcut.1, eachMark_join? hcut.2 (by simpa using h.2.2)⟩
  | case5 mark l r length height _ _ _ =>
      exact ⟨by simpa using h.2.1, by simpa using h.2.2⟩
  | case6 k _ mark l r length height hk hne a b heq _ ih =>
      have hcut := ih h.2.2
      rw [heq] at hcut
      exact ⟨eachMark_join? (by simpa using h.2.1) hcut.1, hcut.2⟩

theorem eachMark_split? {a : Option Node} (ha : ∀ n ∈ a, n.EachMark P) (k : Nat) :
    (∀ n ∈ (split? a k).1, n.EachMark P) ∧ ∀ n ∈ (split? a k).2, n.EachMark P := by
  cases a with
  | none => exact ⟨ha, ha⟩
  | some n => exact (ha n rfl).split k

/-- A tree that is built from bytes has no marks. -/
theorem eachMark_build (bytes : Bytes) : (build bytes).EachMark P := by
  fun_induction build bytes with
  | case1 bytes _ => exact eachMark_ofChunk bytes
  | case2 bytes _ ihLeft ihRight => exact ihLeft.balance ihRight

theorem eachMark_build? (bytes : Bytes) : ∀ n ∈ build? bytes, n.EachMark P := by
  intro n hn
  unfold build? at hn
  split_ifs at hn
  · cases hn
  · cases hn
    exact eachMark_build bytes

/-! ## Giving out marks -/

section Stamp

variable {content content' : Mark → Bytes} {version next next' : Nat}

/-- Every mark in the tree has been given out before the next one, and the record says what
it stands for. -/
def Recorded (content : Mark → Bytes) (version next : Nat) (n : Node) : Prop :=
  n.EachMark fun k bytes => k.Precedes version next ∧ content k = bytes

/-- What is on record stays there when later marks are entered. -/
theorem Recorded.extend {n : Node} (h : n.Recorded content version next) (hle : next ≤ next')
    (hkept : ∀ k, k.Precedes version next → content' k = content k) :
    n.Recorded content' version next' := by
  apply EachMark.mono h
  rintro k bytes ⟨hk, hbytes⟩
  exact ⟨hk.mono hle, (hkept k hk).trans hbytes⟩

/-- Entering the next mark leaves what is on record. -/
theorem update_of_precedes {k : Mark} (hk : k.Precedes version next) (bytes : Bytes) :
    Function.update content ⟨version, next⟩ bytes k = content k := by
  apply Function.update_of_ne
  rintro rfl
  exact Mark.not_precedes version next hk

theorem precedes_next (version next : Nat) : (Mark.mk version next).Precedes version (next + 1) :=
  .inr ⟨rfl, Nat.lt_succ_self next⟩

/-- Marking a tree gives out marks that no node has carried, so there is a record of what
they stand for that agrees with the one so far on all earlier marks.  The mark of the root is
the first that is entered, before those of the nodes below it. -/
theorem Recorded.exists_stamp {n : Node} (h : n.Recorded content version next) :
    next ≤ (stamp version n next).2 ∧
    ∃ content', (∀ k : Mark, k.Precedes version next → content' k = content k) ∧
      (stamp version n next).1.Recorded content' version (stamp version n next).2 := by
  induction n generalizing next content with
  | leaf mark bytes =>
      rcases mark with _ | mark
      · refine ⟨Nat.le_succ next, Function.update content ⟨version, next⟩ bytes,
          fun k hk => update_of_precedes hk bytes, ?_⟩
        intro k hk
        cases hk
        exact ⟨precedes_next version next, Function.update_self ..⟩
      · exact ⟨Nat.le_refl next, content, fun _ _ => rfl, h⟩
  | branch mark left right length height ihl ihr =>
      rcases mark with _ | mark
      · rcases h with ⟨-, hl, hr⟩
        have hmark := precedes_next version next
        let root : Mark → Bytes :=
          Function.update content ⟨version, next⟩ (left.toBytes ++ right.toBytes)
        have hroot : ∀ k : Mark, k.Precedes version next → root k = content k :=
          fun k hk => update_of_precedes hk _
        have hleft : left.Recorded root version (next + 1) :=
          Recorded.extend hl (Nat.le_succ next) hroot
        rcases ihl hleft with ⟨hnext, below, hbelow, hl'⟩
        have hright : right.Recorded below version (stamp version left (next + 1)).2 := by
          apply Recorded.extend hr (Nat.le_of_succ_le hnext)
          intro k hk
          rw [hbelow k (hk.mono (Nat.le_succ next)), hroot k hk]
        rcases ihr hright with ⟨hnext', last, hlast, hr'⟩
        have hkept : ∀ k : Mark, k.Precedes version (next + 1) → last k = root k := by
          intro k hk
          rw [hlast k (hk.mono hnext), hbelow k hk]
        simp only [stamp]
        refine ⟨Nat.le_trans (Nat.le_of_succ_le hnext) hnext', last, ?_, ?_, ?_, hr'⟩
        · intro k hk
          rw [hkept k (hk.mono (Nat.le_succ next)), hroot k hk]
        · intro k hk
          cases hk
          refine ⟨hmark.mono (Nat.le_trans hnext hnext'), ?_⟩
          rw [hkept _ hmark, (stamp_views version left _).1, (stamp_views version right _).1]
          exact Function.update_self ..
        · exact Recorded.extend hl' hnext' hlast
      · exact ⟨Nat.le_refl next, content, fun _ _ => rfl, h⟩

end Stamp

end Node

namespace Rope

variable {r s : Rope} {content content' : Mark → Bytes} {version version' : Nat}

/-! ## Versions on record -/

/-- All marks of the version have been given out by earlier versions, and the record says
what they stand for. -/
def Filed (content : Mark → Bytes) (version : Nat) (r : Rope) : Prop :=
  ∀ n ∈ r.root, n.EachMark fun k bytes => k.version < version ∧ content k = bytes

theorem filed_empty : Filed content version .empty := by
  intro n hn
  cases hn

/-- Bytes are loaded into a tree without marks. -/
theorem filed_ofBytes (bytes : Bytes) : (ofBytes bytes).Filed content version := by
  unfold ofBytes
  rw [Node.buildParallel_eq_build]
  exact Node.eachMark_build? bytes

/-- Replacing a range gives no mark out. -/
theorem Filed.splice (h : r.Filed content version) {range : Range} {replacement : Bytes}
    (hs : r.splice range replacement = .ok s) : s.Filed content version := by
  unfold Rope.splice at hs
  split_ifs at hs with hholds hidle
  · cases hs
    exact h
  · rcases Node.eachMark_split? h range.start with ⟨hbefore, hrest⟩
    rcases Node.eachMark_split? hrest (range.stop - range.start) with ⟨-, hafter⟩
    cases hs
    exact Node.eachMark_join?
      (Node.eachMark_join? hbefore (Node.eachMark_build? replacement)) hafter

/-- Versions stay on record when later marks are entered. -/
theorem Filed.extend (h : r.Filed content version) (hle : version ≤ version')
    (hkept : ∀ k : Mark, k.version < version → content' k = content k) :
    r.Filed content' version' := by
  intro n hn
  apply (h n hn).mono
  rintro k bytes ⟨hk, hbytes⟩
  exact ⟨Nat.lt_of_lt_of_le hk hle, (hkept k hk).trans hbytes⟩

/-- Completing a version enters the marks that it has added. -/
theorem Filed.complete (h : r.Filed content version) :
    ∃ content', (∀ k : Mark, k.version < version → content' k = content k) ∧
      (r.complete version).Filed content' (version + 1) := by
  rcases r with ⟨_ | n⟩
  · exact ⟨content, fun _ _ => rfl, filed_empty⟩
  · have hrecorded : n.Recorded content version 0 :=
      (h n rfl).mono fun k bytes hk => ⟨.inl hk.1, hk.2⟩
    rcases hrecorded.exists_stamp with ⟨-, content', hkept, hstamped⟩
    refine ⟨content', fun k hk => hkept k (.inl hk), ?_⟩
    intro m hm
    cases hm
    apply hstamped.mono
    rintro k bytes ⟨hk, hbytes⟩
    refine ⟨?_, hbytes⟩
    rcases hk with hk | ⟨hk, -⟩ <;> omega

/-- Versions on record that are the very same hold the same bytes. -/
theorem Filed.toBytes_eq_of_sameVersion (hr : r.Filed content version)
    (hs : s.Filed content version) (hsame : r.sameVersion s = true) :
    r.toBytes = s.toBytes := by
  rcases r with ⟨root⟩
  rcases s with ⟨root'⟩
  rcases sameVersion_iff.1 hsame with ⟨hr', hs'⟩ | ⟨m, n, mark, hr', hs', hm, hn⟩
  · cases hr'
    cases hs'
    rfl
  · cases hr'
    cases hs'
    rw [toBytes_root_some, toBytes_root_some, ← ((hr m rfl).root hm).2, ((hs n rfl).root hn).2]

end Rope

end HexEditor
