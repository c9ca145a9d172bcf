import HexEditor.Pattern.Search
import HexEditor.Proofs.Pattern.Greedy
import HexEditor.Proofs.Rope.Walk

/-!
# The search finds the greedy matches

A search holds the bytes it has not passed in two parts: those in its window, and
those the walk over the version still hands out.  Pulling chunks moves bytes from the
walk to the window, passing positions drops them from the window, and neither changes
which greedy matches are left.

Main results:

- Theorem `Matches.fill_spec`: filling the window moves bytes and gets enough of them
  unless the walk ends.
- Theorem `Matches.scan_spec`: a scan takes the first of the greedy matches that are
  left.
- Theorem `Matches.answers_eq_replay`: a search that is stepped and begun again in any
  order answers as a list of matches does that is read and reread.
- Theorem `Rope.search_refines_greedy`: searches of versions find the greedy matches of
  the bytes.
-/

namespace HexEditor

open Pattern

namespace Matches

/-! ## Filling the window -/

/-- The shortfall is the difference of the lengths. -/
theorem shortfall_eq (n : Nat) (bytes : Bytes) : shortfall n bytes = n - bytes.length := by
  fun_induction shortfall n bytes with
  | case1 n => rfl
  | case2 => rw [Nat.zero_sub]
  | case3 n b bytes ih =>
      rw [ih, List.length_cons]
      omega

/-- Pulling moves bytes out of the walk.  It gets the number that is needed, or the walk
has no more. -/
theorem pull_spec (needed : Nat) (chunks : Chunks) :
    chunks.bytes = (pull needed chunks).1 ++ (pull needed chunks).2.1.bytes ∧
      ((pull needed chunks).2.2 = true → needed ≤ (pull needed chunks).1.length) ∧
      ((pull needed chunks).2.2 = false →
        (pull needed chunks).1.length < needed ∧ (pull needed chunks).2.1.bytes = []) := by
  fun_induction pull needed chunks with
  | case1 chunks =>
      refine ⟨rfl, fun _ => Nat.le_refl 0, ?_⟩
      intro h
      cases h
  | case2 needed chunks hneeded hend =>
      refine ⟨rfl, ?_, ?_⟩
      · intro h
        cases h
      · intro _
        exact ⟨Nat.pos_of_ne_zero hneeded, Chunks.bytes_of_next?_eq_none hend⟩
  | case3 needed chunks hneeded chunk tail hnext more rest enough heq ih =>
      rw [heq] at ih
      rcases ih with ⟨hbytes, henough, hshort⟩
      simp only at hbytes henough hshort ⊢
      rw [List.length_append]
      refine ⟨?_, ?_, ?_⟩
      · rw [Chunks.bytes_of_next?_eq_some hnext, hbytes, List.append_assoc]
      · intro h
        have hmore := henough h
        omega
      · intro h
        rcases hshort h with ⟨hmore, hrest⟩
        exact ⟨by omega, hrest⟩

/-- Filling the window moves bytes from the walk to its end.  The window then has the
length that is asked for, or the walk has no more. -/
theorem fill_spec (n : Nat) (chunks : Chunks) (window : Bytes) :
    let pulled := pull (shortfall n window) chunks
    let filled := extend window pulled.1
    window ++ chunks.bytes = filled ++ pulled.2.1.bytes ∧
      (pulled.2.2 = true → n ≤ filled.length) ∧
      (pulled.2.2 = false → filled.length < n ∧ pulled.2.1.bytes = []) := by
  intro pulled filled
  rcases pull_spec (shortfall n window) chunks with ⟨hbytes, henough, hshort⟩
  have hfilled : filled = window ++ pulled.1 := extend_eq_append window pulled.1
  have hlength : filled.length = window.length + pulled.1.length := by
    rw [hfilled, List.length_append]
  have hneeded := shortfall_eq n window
  refine ⟨?_, ?_, ?_⟩
  · rw [hbytes, hfilled, List.append_assoc]
  · intro h
    have hmore : shortfall n window ≤ pulled.1.length := henough h
    omega
  · intro h
    have hmore : pulled.1.length < shortfall n window := (hshort h).1
    exact ⟨by omega, (hshort h).2⟩

/-- No match begins within the lead-in of a window, whatever follows it. -/
theorem not_heads_of_lt_leadIn {pattern : Pattern} {window : Bytes} {j : Nat}
    (h : j < leadIn pattern window) (more : Bytes) :
    heads pattern ((window ++ more).drop j) = false := by
  have hlength := Nat.lt_of_lt_of_le h (leadIn_le_length pattern window)
  rw [List.drop_append_of_le_length (Nat.le_of_lt hlength), List.drop_eq_getElem_cons hlength,
    List.cons_append]
  rcases pattern with _ | ⟨byte | _, pieces⟩
  · exact absurd h (Nat.not_lt_zero j)
  · exact not_heads_of_literal (List.not_of_lt_findIdx h)
  · exact absurd h (Nat.not_lt_zero j)

/-! ## One scan -/

/-- A scan takes the first of the greedy matches in the window and the bytes behind it.
If it finds nothing, there is none. -/
theorem scan_spec {pattern : Pattern} (hne : pattern ≠ []) (chunks : Chunks)
    (window : Bytes) (position : Nat) :
    greedyFrom pattern position 0 (window ++ chunks.bytes) =
      match (scan pattern chunks window position).found with
      | none => []
      | some p =>
        p :: greedyFrom pattern (scan pattern chunks window position).position 0
          ((scan pattern chunks window position).window ++
            (scan pattern chunks window position).chunks.bytes) := by
  have hpos : 0 < pattern.length := List.length_pos_iff.2 hne
  fun_induction scan pattern chunks window position with
  | case1 chunks window position pulled filled hshort =>
      rcases fill_spec pattern.length chunks window with ⟨hbytes, -, hend⟩
      rcases hend hshort with ⟨hfew, hrest⟩
      simp only
      rw [hbytes, hrest, List.append_nil]
      exact greedyFrom_of_short position hfew
  | case2 chunks window position pulled filled skipped hshort hskip ih =>
      rcases fill_spec pattern.length chunks window with ⟨hbytes, -, -⟩
      have hwithin : skipped ≤ filled.length := leadIn_le_length pattern filled
      rw [← ih, hbytes, ← List.drop_append_of_le_length hwithin]
      apply greedyFrom_drop
      intro j hj
      exact not_heads_of_lt_leadIn hj pulled.2.1.bytes
  | case3 chunks window position pulled filled skipped hshort hskip hheads =>
      rcases fill_spec pattern.length chunks window with ⟨hbytes, -, -⟩
      have hwithin : pattern.length ≤ filled.length := length_le_of_heads hheads
      simp only
      rw [hbytes, ← List.drop_append_of_le_length hwithin]
      apply greedyFrom_of_heads hne
      rw [heads_append _ hwithin, hheads]
  | case4 chunks window position pulled filled skipped hshort hskip hheads hempty =>
      -- an empty window would be too short for the pattern
      rcases fill_spec pattern.length chunks window with ⟨-, henough, -⟩
      have hwithin : pattern.length ≤ filled.length :=
        henough (Bool.eq_true_of_not_eq_false hshort)
      have hnone := List.isEmpty_iff_length_eq_zero.1 hempty
      omega
  | case5 chunks window position pulled filled skipped hshort hskip hheads hempty ih =>
      rcases fill_spec pattern.length chunks window with ⟨hbytes, henough, -⟩
      have hwithin : pattern.length ≤ filled.length :=
        henough (Bool.eq_true_of_not_eq_false hshort)
      rw [← ih, hbytes, ← List.drop_append_of_le_length (Nat.le_trans hpos hwithin)]
      apply greedyFrom_of_not_heads
      rw [heads_append _ hwithin, Bool.eq_false_iff]
      exact hheads

/-! ## Stepping a search -/

/-- The matches that a search has still to find. -/
def remaining (m : Matches) : List Range :=
  if m.exhausted then []
  else
    (greedyFrom m.pattern m.position 0 (m.window ++ m.chunks.bytes)).map fun p =>
      ⟨p, p + m.pattern.length⟩

/-- What a search keeps to while it is stepped: all of its matches come up again when it
is begun again, and it does not look for nothing. -/
structure Searches (m : Matches) (all : List Range) : Prop where
  /-- Begun again, the search has all matches to find. -/
  remaining_restart : m.restart.remaining = all
  /-- A search for the empty pattern is at its end. -/
  ne_nil : m.exhausted = false → m.pattern ≠ []

/-- The next match is the first of those that are left, and the others stay. -/
theorem next_spec {m : Matches} {all : List Range} (h : m.Searches all) :
    m.next.1 = m.remaining.head? ∧ m.next.2.remaining = m.remaining.tail ∧
      m.next.2.Searches all := by
  by_cases hend : m.exhausted = true
  · have hstay : m.next = (none, m) := by rw [next, if_pos hend]
    have hnone : m.remaining = [] := by rw [remaining, if_pos hend]
    rw [hstay]
    simp only
    rw [hnone]
    exact ⟨rfl, rfl, h⟩
  · have hne := h.ne_nil (Bool.eq_false_iff.2 hend)
    have hscan := scan_spec hne m.chunks m.window m.position
    rw [remaining, if_neg hend, next, if_neg hend]
    rcases hscanned : scan m.pattern m.chunks m.window m.position with
      ⟨found, chunks, window, position⟩
    rw [hscanned] at hscan
    rw [hscan]
    refine ⟨?_, ?_, h.remaining_restart, fun _ => hne⟩
    · cases found with
      | none => rfl
      | some p => rfl
    · rw [remaining]
      cases found with
      | none => rfl
      | some p => rfl

/-- A search that is begun again has all its matches to find. -/
theorem restart_spec {m : Matches} {all : List Range} (h : m.Searches all) :
    m.restart.remaining = all ∧ m.restart.Searches all := by
  refine ⟨h.remaining_restart, h.remaining_restart, ?_⟩
  intro hgoing hnil
  have hempty : m.pattern.isEmpty = true := List.isEmpty_iff.2 hnil
  exact absurd (hgoing.symm.trans hempty) Bool.false_ne_true

/-! ## Calls in any order -/

/-- What can be asked of a search. -/
inductive Call where
  /-- Find the next match. -/
  | next
  /-- Begin again. -/
  | restart

/-- The answers of a search to a sequence of calls; beginning again is not answered. -/
def answers : Matches → List Call → List (Option Range)
  | _, [] => []
  | m, .next :: calls => m.next.1 :: answers m.next.2 calls
  | m, .restart :: calls => answers m.restart calls

/-- The answers of a list of matches: the matches that are left are handed out one by
one, then nothing, and beginning again brings all of them back. -/
def replay (all : List Range) : List Range → List Call → List (Option Range)
  | _, [] => []
  | left, .next :: calls => left.head? :: replay all left.tail calls
  | _, .restart :: calls => replay all all calls

/-- A search answers as the list of its matches does. -/
theorem answers_eq_replay {m : Matches} {all : List Range} (h : m.Searches all)
    (calls : List Call) : m.answers calls = replay all m.remaining calls := by
  induction calls generalizing m with
  | nil => rfl
  | cons call calls ih =>
      cases call with
      | next =>
          rcases next_spec h with ⟨hfound, hleft, hrest⟩
          rw [answers, replay, ih hrest, hfound, hleft]
      | restart =>
          rcases restart_spec h with ⟨hall, hrest⟩
          rw [answers, replay, ih hrest, hall]

/-- Taking matches off a search takes them off the front of those that are left. -/
theorem takeAfter_eq {m : Matches} {all : List Range} (h : m.Searches all)
    (found : List Range) (limit : Nat) :
    takeAfter found limit m = found.reverse ++ m.remaining.take limit := by
  induction limit generalizing m found with
  | zero => rw [takeAfter, List.take_zero, List.append_nil]
  | succ limit ih =>
      rcases next_spec h with ⟨hfound, hleft, hrest⟩
      rw [takeAfter]
      rcases hnext : m.next with ⟨answer, rest⟩
      rw [hnext] at hfound hleft hrest
      simp only at hfound hleft hrest
      cases hremaining : m.remaining with
      | nil =>
          rw [hremaining, List.head?_nil] at hfound
          rw [hfound, List.take_nil, List.append_nil]
      | cons first others =>
          rw [hremaining, List.head?_cons] at hfound
          rw [hremaining, List.tail_cons] at hleft
          rw [hfound, List.take_succ_cons]
          simp only
          rw [ih hrest, hleft, List.reverse_cons, List.append_assoc, List.singleton_append]

end Matches

/-! ## Searches of versions -/

namespace Rope

/-- A search that is begun over a range of a sound version has the matches in the range
to find. -/
theorem Sound.searches_over {r : Rope} (h : r.Sound) (pattern : Pattern) (range : Range) :
    (Matches.over r pattern range).remaining = pattern.matchesIn r.toBytes range ∧
      (Matches.over r pattern range).Searches (pattern.matchesIn r.toBytes range) := by
  have hempty : (Matches.over r pattern range).exhausted = pattern.isEmpty := rfl
  have hremaining : (Matches.over r pattern range).remaining =
      pattern.matchesIn r.toBytes range := by
    rw [Matches.remaining, matchesIn, greedy, hempty]
    by_cases hnil : pattern.isEmpty = true
    · rw [if_pos hnil, if_pos hnil]
      rfl
    · rw [if_neg hnil, if_neg hnil]
      simp only [Matches.over, Matches.restart]
      rw [h.bytes_chunks, List.nil_append, ← h.length_eq]
      have hclamped : (r.toBytes.take (min (max range.stop (min range.start r.length))
            r.length)).drop (min range.start r.length) =
          (r.toBytes.take range.stop).drop (min range.start r.length) := by
        rw [List.drop_take, List.drop_take, List.take_eq_take_iff, List.length_drop,
          ← h.length_eq]
        omega
      have hshift := greedyFrom_add pattern 0 0 (min range.start r.length)
        ((r.toBytes.take range.stop).drop (min range.start r.length))
      rw [Nat.zero_add] at hshift
      rw [hclamped, hshift, List.map_map]
      apply List.map_congr_left
      intro p _
      simp only [Function.comp_apply, Nat.add_comm p]
  refine ⟨hremaining, hremaining, ?_⟩
  intro hgoing hnil
  rw [hempty] at hgoing
  exact absurd (hgoing.symm.trans (List.isEmpty_iff.2 hnil)) Bool.false_ne_true

/-- All matches in a sound version are listed. -/
theorem Sound.toList_over {r : Rope} (h : r.Sound) (pattern : Pattern) (range : Range) :
    (Matches.over r pattern range).toList = pattern.matchesIn r.toBytes range := by
  rcases h.searches_over pattern range with ⟨hremaining, hsearches⟩
  rw [Matches.toList, Matches.take, Matches.takeAfter_eq hsearches, hremaining,
    List.reverse_nil, List.nil_append]
  apply List.take_of_length_le
  exact Nat.le_trans (length_matchesIn_le pattern r.toBytes range) (Nat.le_of_eq h.length_eq.symm)

/-- Searching a version finds the greedy matches in its bytes.  However often and in
whatever order a search is stepped and begun again, it answers as the list of these
matches does that is handed out from its front, stays empty when it has run out, and is
whole again after beginning again.  A limited search finds the first of them. -/
theorem search_refines_greedy {r : Rope} (h : r.Reachable) (pattern : Pattern)
    (range : Range) :
    (∀ calls, (Matches.over r pattern range).answers calls =
        Matches.replay (pattern.matchesIn r.toBytes range)
          (pattern.matchesIn r.toBytes range) calls) ∧
      ∀ limit, r.findAll pattern range limit =
        (pattern.matchesIn r.toBytes range).take limit := by
  rcases h.sound.searches_over pattern range with ⟨hremaining, hsearches⟩
  constructor
  · intro calls
    rw [Matches.answers_eq_replay hsearches, hremaining]
  · intro limit
    rw [findAll, Matches.take, Matches.takeAfter_eq hsearches, hremaining, List.reverse_nil,
      List.nil_append]

/-- A one and any byte behind it are found twice in five bytes, and again after
beginning again. -/
theorem search_refines_greedy_pairs :
    (ofBytes [1, 2, 1, 3, 1]).Reachable ∧
      (Matches.over (ofBytes [1, 2, 1, 3, 1]) [.literal 1, .wildcard] ⟨0, 5⟩).answers
          [.next, .next, .next, .next, .restart, .next] =
        [some ⟨0, 2⟩, some ⟨2, 4⟩, none, none, some ⟨0, 2⟩] ∧
      (ofBytes [1, 2, 1, 3, 1]).findAll [.literal 1, .wildcard] ⟨1, 9⟩ 1 = [⟨2, 4⟩] := by
  have hreachable : (ofBytes [1, 2, 1, 3, 1]).Reachable := .ofBytes _
  have hall := (search_refines_greedy hreachable [.literal 1, .wildcard] ⟨0, 5⟩).1
  have hfirst := (search_refines_greedy hreachable [.literal 1, .wildcard] ⟨1, 9⟩).2
  rw [toBytes_ofBytes] at hall hfirst
  refine ⟨hreachable, ?_, ?_⟩
  · rw [hall]
    decide
  · rw [hfirst]
    decide

end Rope

end HexEditor
