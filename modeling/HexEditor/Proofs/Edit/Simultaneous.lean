import HexEditor.Proofs.Edit.Parts

/-!
# Edits carried out at once

Edits are carried out from the last to the first, and the selections that they leave are moved in a
pass from the first to the last.  If the ranges of the edits are ascending and disjoint, all this
is the same as replacing the ranges at once: what comes out are the gaps between the ranges and the
replacements by turns.  What the pass has added up when it comes to an edit is the distance from
where the range of the edit began to where its replacement begins.

Main results:

- Definition `LocalEdit.atOnce`: the gaps and the replacements by turns.
- Theorem `LocalEdit.chained_of_isChain`: ascending and disjoint edits follow one another.
- Theorem `LocalEdit.patch_eq_atOnce`: edits in order lead to the gaps and the replacements.
- Definition `LocalEdit.carried` and theorem `LocalEdit.getElem?_remaining`: what the pass over the
  selections has added up when it comes to an edit.
- Theorem `LocalEdit.Chained.exists_replacement`: where the replacement of an edit is found.
- Theorem `Rope.spliceAll_replaces_at_once`: all of this for every version.
-/

namespace HexEditor

namespace LocalEdit

/-! ## Gaps and replacements -/

/-- The ranges between those of the edits, the first of which begins at the offset and the last of
which ends at the length. -/
def gaps (offset length : Nat) (edits : List LocalEdit) : List Range :=
  List.zipWith Range.mk (offset :: edits.map (·.range.stop)) (edits.map (·.range.start) ++ [length])

/-- The gaps and the replacements by turns, from the offset on.  No replacement comes behind the
last gap. -/
def atOnceFrom (offset : Nat) (bytes : Bytes) (edits : List LocalEdit) : Bytes :=
  (List.zipWith (fun gap replacement =>
      (bytes.drop gap.start).take (gap.stop - gap.start) ++ replacement)
    (gaps offset bytes.length edits) (edits.map (·.replacement) ++ [[]])).flatten

/-- The bytes with all ranges replaced at once. -/
def atOnce (bytes : Bytes) (edits : List LocalEdit) : Bytes :=
  atOnceFrom 0 bytes edits

variable {edits front back : List LocalEdit} {e : LocalEdit} {offset length : Nat} {bytes : Bytes}

/-- Edits whose ranges are proper, ascending and disjoint follow one another. -/
theorem chained_of_isChain
    (hwithin : ∀ e ∈ edits, e.range.start ≤ e.range.stop ∧ e.range.stop ≤ length)
    (hascending : edits.IsChain fun e f => e.range.stop ≤ f.range.start)
    (hoffset : offset ≤ length) (hfirst : ∀ e ∈ edits.head?, offset ≤ e.range.start) :
    Chained offset length edits := by
  induction edits generalizing offset with
  | nil => exact hoffset
  | cons e edits ih =>
      rcases List.isChain_cons.1 hascending with ⟨hnext, hrest⟩
      rcases hwithin e List.mem_cons_self with ⟨hproper, hstop⟩
      exact ⟨hfirst e rfl, hproper,
        ih (fun f hf => hwithin f (List.mem_cons_of_mem _ hf)) hrest hstop hnext⟩

/-- The pass from left to right writes the gaps and the replacements by turns. -/
theorem patch_eq_atOnceFrom (h : Chained offset bytes.length edits) :
    patch offset (bytes.drop offset) edits = atOnceFrom offset bytes edits := by
  induction edits generalizing offset with
  | nil =>
      have hall : (bytes.drop offset).length ≤ bytes.length - offset := by rw [List.length_drop]
      simp only [patch, atOnceFrom, gaps, List.map_nil, List.nil_append, List.zipWith_cons_cons,
        List.zipWith_nil_left, List.flatten_cons, List.flatten_nil, List.append_nil,
        List.take_of_length_le hall]
  | cons e edits ih =>
      rcases h with ⟨hfront, hproper, hbehind⟩
      have hrest := ih hbehind
      rw [atOnceFrom, gaps] at hrest
      rw [patch, List.drop_drop, Nat.add_sub_cancel' (hfront.trans hproper), hrest]
      simp only [atOnceFrom, gaps, List.map_cons, List.cons_append, List.zipWith_cons_cons,
        List.flatten_cons, List.append_assoc]

/-- Edits that follow one another lead to what replacing their ranges at once leads to. -/
theorem patch_eq_atOnce (h : Chained 0 bytes.length edits) :
    patch 0 bytes edits = atOnce bytes edits :=
  patch_eq_atOnceFrom h

/-! ## What the pass adds up -/

/-- How far the edits in front of another one have moved it, as the pass over the selections adds it
up. -/
def carried (front : List LocalEdit) : Int :=
  (front.foldl moveNext ([], 0)).2

theorem carried_eq (front : List LocalEdit) : carried front = (front.map growth).sum := by
  have hfold : ∀ (front : List LocalEdit) (moved : List Selection × Int),
      (front.foldl moveNext moved).2 = moved.2 + (front.map growth).sum := by
    intro front
    induction front with
    | nil => exact fun moved => (Int.add_zero _).symm
    | cons e front ih =>
        intro moved
        rw [List.foldl_cons, ih, List.map_cons, List.sum_cons, ← Int.add_assoc]
        rfl
  exact (hfold front ([], 0)).trans (Int.zero_add _)

theorem settle_append (moved : Int) (front back : List LocalEdit) :
    settle moved (front ++ back) =
      settle moved front ++ settle (moved + (front.map growth).sum) back := by
  induction front generalizing moved with
  | nil =>
      rw [List.map_nil, List.sum_nil, Int.add_zero]
      rfl
  | cons e front ih =>
      rw [List.cons_append, settle, settle, ih, List.map_cons, List.sum_cons, Int.add_assoc]
      rfl

/-- The selection of an edit is moved by what the pass has added up when it comes to the edit. -/
theorem getElem?_remaining (front : List LocalEdit) (e : LocalEdit) (back : List LocalEdit) :
    (remaining (front ++ e :: back))[front.length]? = some (e.after.shifted (carried front)) := by
  rw [remaining_eq_settle, settle_append, List.getElem?_append_right (length_settle 0 front).le,
    length_settle, Nat.sub_self, Int.zero_add, ← carried_eq]
  rfl

/-- In front of the replacement of an edit come the bytes in front of its range, edited.  What the
pass has added up is by how much they have grown. -/
theorem Chained.exists_replacement (h : Chained 0 bytes.length (front ++ e :: back))
    (hlength : bytes.length ≤ lastOffset) :
    ∃ behind, patch 0 bytes (front ++ e :: back) =
        atOnce (bytes.take e.range.start) front ++ e.replacement ++ behind ∧
      ((atOnce (bytes.take e.range.start) front).length : Int) =
        e.range.start + carried front := by
  rcases h.bounds (show e ∈ front ++ e :: back by simp) with ⟨-, hproper, hstop⟩
  have hkept : (bytes.take e.range.start).length = e.range.start := by
    rw [List.length_take]
    omega
  have hfront := h.upTo (Nat.zero_le _) h.stop_le_start
  have hgrown := length_patch hfront (hproper.trans (hstop.trans hlength))
    (show 0 + (bytes.take e.range.start).length = e.range.start by rw [hkept, Nat.zero_add])
  rw [← patch_eq_atOnce (hkept.symm ▸ hfront), carried_eq, hgrown, hkept]
  refine ⟨patch e.range.stop
    ((bytes.drop e.range.start).drop (e.range.stop - e.range.start)) back, ?_, rfl⟩
  rw [patch_append h (Nat.zero_le _) h.stop_le_start h.start_le_start, Nat.sub_zero, patch,
    Nat.sub_self, List.take_zero, List.nil_append, List.append_assoc]

/-- When the pass has come to the end, it has added up by how much the bytes have grown. -/
theorem Chained.length_atOnce (h : Chained 0 bytes.length edits)
    (hlength : bytes.length ≤ lastOffset) :
    ((atOnce bytes edits).length : Int) = bytes.length + carried edits := by
  rw [← patch_eq_atOnce h, carried_eq]
  exact length_patch h hlength (Nat.zero_add _)

/-- As long as the bytes are fewer than two to the 63 before and after, what the pass adds up stays
in the signed words. -/
theorem Chained.carried_bounds (h : Chained 0 bytes.length (front ++ back))
    (hbefore : bytes.length < 2 ^ 63) (hafter : (atOnce bytes (front ++ back)).length < 2 ^ 63) :
    -2 ^ 63 ≤ carried front ∧ carried front < 2 ^ 63 := by
  have hlength : bytes.length ≤ lastOffset := hbefore.le.trans (by decide)
  cases back with
  | nil =>
      rw [List.append_nil] at h hafter
      have hgrown := h.length_atOnce hlength
      omega
  | cons e back =>
      have hstart := (h.bounds (show e ∈ front ++ e :: back by simp)).2
      rcases h.exists_replacement hlength with ⟨behind, hsplit, hmoved⟩
      have hall := congrArg List.length hsplit
      rw [patch_eq_atOnce h, List.length_append, List.length_append] at hall
      omega

end LocalEdit

namespace Rope

variable {rope : Rope} {edits : List LocalEdit}

open LocalEdit

/-- Edits whose ranges lie in a version, ascending and disjoint, are never refused.  Splicing them
from the last to the first leaves the gaps and the replacements by turns.  The selection of every
edit is moved by what the pass has added up in front of it, and that is just as far as its
replacement lies from where its range began.  With fewer than two to the 63 bytes before and after,
the pass adds up nothing that is no signed word. -/
theorem spliceAll_replaces_at_once (h : rope.Sound) (hlength : rope.length ≤ lastOffset)
    (hwithin : ∀ e ∈ edits, e.range.start ≤ e.range.stop ∧ e.range.stop ≤ rope.length)
    (hascending : edits.IsChain fun e f => e.range.stop ≤ f.range.start) :
    ∃ next, rope.spliceAll edits = .ok next ∧ next.toBytes = atOnce rope.toBytes edits ∧
      (∀ set edit, set.selections.zipIdx.map (fun p => edit p.1 p.2) = edits →
        rope.applyEdits set edit =
          .ok ⟨next, (SelectionSet.ofList (remaining edits) set.main).clamped next.length⟩) ∧
      (∀ front e back, edits = front ++ e :: back →
        (remaining edits)[front.length]? = some (e.after.shifted (carried front)) ∧
          ∃ before behind, next.toBytes = before ++ e.replacement ++ behind ∧
            before = atOnce (rope.toBytes.take e.range.start) front ∧
            carried front = before.length - e.range.start) ∧
      (rope.length < 2 ^ 63 → next.length < 2 ^ 63 → ∀ front back, edits = front ++ back →
        -2 ^ 63 ≤ carried front ∧ carried front < 2 ^ 63) := by
  have hchained : Chained 0 rope.length edits :=
    chained_of_isChain hwithin hascending (Nat.zero_le _) fun _ _ => Nat.zero_le _
  rcases h.exists_spliceAll_eq_patch hchained with ⟨next, hnext, hsound, hbytes⟩
  rw [h.length_eq] at hchained hlength
  rw [List.take_zero, List.drop_zero, List.nil_append] at hbytes
  have hreplaced := hbytes.trans (patch_eq_atOnce hchained)
  refine ⟨next, hnext, hreplaced, ?_, ?_, ?_⟩
  · rintro set edit rfl
    exact (applyEdits_eq rope set edit).trans (congrArg (Except.map _) hnext)
  · rintro front e back rfl
    rcases hchained.exists_replacement hlength with ⟨behind, hsplit, hmoved⟩
    refine ⟨getElem?_remaining front e back, _, behind, hbytes.trans hsplit, rfl, ?_⟩
    omega
  · rintro hbefore hafter front back rfl
    rw [h.length_eq] at hbefore
    rw [hsound.length_eq, hreplaced] at hafter
    exact hchained.carried_bounds hbefore hafter

/-- A byte is put in in front of a range that is removed, and two pieces are put in at the offset at
which that range ends.  Behind them a byte is replaced. -/
def touchingEdits : List LocalEdit :=
  [⟨⟨1, 1⟩, [9], .point 0⟩, ⟨⟨1, 3⟩, [], .point 1⟩, ⟨⟨3, 3⟩, [7, 8], .point 2⟩,
    ⟨⟨3, 3⟩, [6], .point 3⟩, ⟨⟨4, 5⟩, [0], .point 4⟩]

/-- The two pieces come out in the order of their edits, and the last replacement has moved by two.
-/
theorem spliceAll_replaces_at_once_touching :
    ∃ next, (Rope.ofBytes [1, 2, 3, 4, 5]).spliceAll touchingEdits = .ok next ∧
      next.toBytes = [1, 9, 7, 8, 6, 4, 0] ∧
      ∃ before behind, next.toBytes = before ++ [0] ++ behind ∧ (before.length : Int) - 4 = 2 := by
  have hsound := sound_ofBytes [1, 2, 3, 4, 5]
  have hlength : (Rope.ofBytes [1, 2, 3, 4, 5]).length = 5 := length_ofBytes _
  have hwithin : ∀ e ∈ touchingEdits, e.range.start ≤ e.range.stop ∧ e.range.stop ≤ 5 := by decide
  rcases spliceAll_replaces_at_once hsound (by rw [hlength]; decide)
      (by rw [hlength]; exact hwithin) (by decide) with ⟨next, hnext, hbytes, -, hplaces, -⟩
  rcases hplaces (touchingEdits.take 4) ⟨⟨4, 5⟩, [0], .point 4⟩ [] rfl with
    ⟨-, before, behind, hsplit, -, hcarried⟩
  refine ⟨next, hnext, ?_, before, behind, hsplit, hcarried.symm.trans (by decide)⟩
  rw [hbytes, toBytes_ofBytes]
  decide

end Rope

end HexEditor
