import HexEditor.Proofs.Selection.Normal
import HexEditor.Proofs.Selection.Refine

/-!
# Cutting at runs of zero bytes

A selection is cut at the runs of zero bytes below it.  They are the greedy matches of a pattern:
found from left to right, each of them just as long as was asked for, so that of a longer run a
rest is left over or is cut out again.  The parts between them are the pieces.  A part that would
be empty is left out, and so a selection below which there are only runs vanishes.

No run is left inside a part, because a place at which the bytes meet the pattern overlaps with
one of the matches, and the parts do not.

Main results:

- Definition `Tiled` and theorem `SelectionSet.tiled_gaps`: parts and delimiters make up a range
  between them.
- Definition `CutAtRuns` and theorem `SelectionSet.cutAtRuns_gaps`: what cutting does to the bytes
  below a selection.
- Theorem `SelectionSet.splitNull?_cuts_runs`: what it does to a set of selections.
-/

namespace HexEditor

/-! ## Parts and delimiters -/

/-- Parts and delimiters make up the offsets from one place to another, each of them in order.  A
part is not empty, and it ends at a delimiter or at the end. -/
inductive Tiled (stop : Nat) : (start : Nat) → (delimiters parts : List Range) → Prop where
  /-- There is nothing left. -/
  | nothing : Tiled stop stop [] []
  /-- The last part goes up to the end. -/
  | rest {start : Nat} (hpart : start < stop) : Tiled stop start [] [⟨start, stop⟩]
  /-- The next thing is a delimiter. -/
  | delimiter {start next : Nat} {delimiters parts : List Range} (hdelimiter : start < next)
      (behind : Tiled stop next delimiters parts) :
      Tiled stop start (⟨start, next⟩ :: delimiters) parts
  /-- The next thing is a part, and a delimiter follows it. -/
  | part {start first next : Nat} {delimiters parts : List Range} (hpart : start < first)
      (hdelimiter : first < next) (behind : Tiled stop next delimiters parts) :
      Tiled stop start (⟨first, next⟩ :: delimiters) (⟨start, first⟩ :: parts)

namespace Tiled

variable {start stop : Nat} {delimiters parts : List Range} {p d : Range}

theorem start_le (h : Tiled stop start delimiters parts) : start ≤ stop := by
  induction h with
  | nothing => exact Nat.le_refl stop
  | rest hpart => exact Nat.le_of_lt hpart
  | delimiter hdelimiter _ ih => omega
  | part hpart hdelimiter _ ih => omega

theorem bounds_delimiter (h : Tiled stop start delimiters parts) (hd : d ∈ delimiters) :
    start ≤ d.start ∧ d.start < d.stop ∧ d.stop ≤ stop := by
  induction h with
  | nothing => cases hd
  | rest hpart => cases hd
  | delimiter hdelimiter behind ih =>
      have hstop := behind.start_le
      rcases List.mem_cons.1 hd with rfl | hd
      · exact ⟨Nat.le_refl _, hdelimiter, hstop⟩
      · have hbounds := ih hd
        omega
  | part hpart hdelimiter behind ih =>
      have hstop := behind.start_le
      rcases List.mem_cons.1 hd with rfl | hd
      · exact ⟨Nat.le_of_lt hpart, hdelimiter, hstop⟩
      · have hbounds := ih hd
        omega

theorem bounds_part (h : Tiled stop start delimiters parts) (hp : p ∈ parts) :
    start ≤ p.start ∧ p.start < p.stop ∧ p.stop ≤ stop := by
  induction h with
  | nothing => cases hp
  | rest hpart =>
      rw [List.mem_singleton.1 hp]
      exact ⟨Nat.le_refl _, hpart, Nat.le_refl _⟩
  | delimiter hdelimiter _ ih =>
      have hbounds := ih hp
      omega
  | part hpart hdelimiter behind ih =>
      have hstop := behind.start_le
      rcases List.mem_cons.1 hp with rfl | hp
      · exact ⟨Nat.le_refl _, hpart, by dsimp only; omega⟩
      · have hbounds := ih hp
        omega

/-- A part shares no offset with a delimiter. -/
theorem separate (h : Tiled stop start delimiters parts) (hd : d ∈ delimiters) (hp : p ∈ parts) :
    d.stop ≤ p.start ∨ p.stop ≤ d.start := by
  induction h with
  | nothing => cases hd
  | rest hpart => cases hd
  | delimiter hdelimiter behind ih =>
      rcases List.mem_cons.1 hd with rfl | hd
      · exact .inl (behind.bounds_part hp).1
      · exact ih hd hp
  | part hpart hdelimiter behind ih =>
      rcases List.mem_cons.1 hd with rfl | hd <;> rcases List.mem_cons.1 hp with rfl | hp
      · exact .inr (Nat.le_refl _)
      · exact .inl (behind.bounds_part hp).1
      · have hbounds := behind.bounds_delimiter hd
        exact .inr (by dsimp only; omega)
      · exact ih hd hp

/-- There is a delimiter between two parts. -/
theorem pairwise_parts (h : Tiled stop start delimiters parts) :
    parts.Pairwise fun p q => p.stop < q.start := by
  induction h with
  | nothing => exact List.Pairwise.nil
  | rest hpart => exact List.pairwise_singleton _ _
  | delimiter _ _ ih => exact ih
  | part hpart hdelimiter behind ih =>
      refine List.pairwise_cons.2 ⟨?_, ih⟩
      intro q hq
      exact Nat.lt_of_lt_of_le hdelimiter (behind.bounds_part hq).1

/-- Put one behind the other, the bytes of the parts and of the delimiters are the bytes from the
one place to the other. -/
theorem exists_reassembly (h : Tiled stop start delimiters parts) (bytes : Bytes) :
    ∃ all : List Range, all.Perm (delimiters ++ parts) ∧
      all.flatMap (fun r => (bytes.take r.stop).drop r.start) =
        (bytes.take stop).drop start := by
  -- what is cut off at a place between the ends and what is left
  have hcut : ∀ {start next : Nat}, start ≤ next → next ≤ stop →
      (bytes.take next).drop start ++ (bytes.take stop).drop next =
        (bytes.take stop).drop start := by
    intro start next hstart hnext
    have hfront : (bytes.take next).drop start =
        ((bytes.take stop).drop start).take (next - start) := by
      rw [List.drop_take, List.drop_take, List.take_take]
      congr 1
      omega
    have hrest : (bytes.take stop).drop next =
        ((bytes.take stop).drop start).drop (next - start) := by
      rw [List.drop_drop]
      congr 1
      omega
    rw [hfront, hrest, List.take_append_drop]
  induction h with
  | nothing => exact ⟨[], .nil, by simp⟩
  | @rest start hpart => exact ⟨[⟨start, stop⟩], by simp, by simp⟩
  | @delimiter start next delimiters parts hdelimiter behind ih =>
      rcases ih with ⟨all, hperm, hbytes⟩
      refine ⟨⟨start, next⟩ :: all, hperm.cons _, ?_⟩
      rw [List.flatMap_cons, hbytes]
      exact hcut (Nat.le_of_lt hdelimiter) behind.start_le
  | @part start first next delimiters parts hpart hdelimiter behind ih =>
      have hstop := behind.start_le
      rcases ih with ⟨all, hperm, hbytes⟩
      refine ⟨⟨start, first⟩ :: ⟨first, next⟩ :: all, ?_, ?_⟩
      · have hmiddle : (⟨first, next⟩ :: delimiters ++ ⟨start, first⟩ :: parts).Perm
            (⟨start, first⟩ :: (⟨first, next⟩ :: delimiters ++ parts)) := List.perm_middle
        exact ((hperm.cons _).cons _).trans hmiddle.symm
      · rw [List.flatMap_cons, List.flatMap_cons, hbytes]
        simp only
        rw [hcut (Nat.le_of_lt hdelimiter) hstop, hcut (Nat.le_of_lt hpart) (by omega)]

end Tiled

/-- A range of a byte string is cut at the runs of as many zero bytes as the number says. -/
structure CutAtRuns (run : Nat) (bytes : Bytes) (range : Range) (delimiters parts : List Range) :
    Prop where
  /-- The delimiters are the runs that are found from left to right. -/
  greedy : delimiters = Pattern.matchesIn (List.replicate run (.literal 0)) bytes range
  /-- Together with the parts they make up the range. -/
  tiled : Tiled range.stop range.start delimiters parts
  /-- The bytes of both put together are the bytes of the range. -/
  reassembled : ∃ all : List Range, all.Perm (delimiters ++ parts) ∧
    all.flatMap (fun r => (bytes.take r.stop).drop r.start) =
      (bytes.take range.stop).drop range.start
  /-- No run is left. -/
  without : ∀ p ∈ parts, ¬ List.replicate run 0 <:+: (bytes.take p.stop).drop p.start

namespace SelectionSet

variable {set : SelectionSet} {rope : Rope} {run : Nat}

/-- The parts between delimiters that are in order and lie in a range make it up together with
them. -/
theorem tiled_gaps {start stop : Nat} {delimiters : List Range} (hstop : start ≤ stop)
    (hordered : delimiters.Pairwise fun d e => d.stop ≤ e.start)
    (hwithin : ∀ d ∈ delimiters, start ≤ d.start ∧ d.start < d.stop ∧ d.stop ≤ stop) :
    Tiled stop start delimiters (gaps start stop delimiters) := by
  induction delimiters generalizing start with
  | nil =>
      rw [gaps_nil]
      split_ifs with hempty
      · rw [Nat.le_antisymm hstop hempty]
        exact .nothing
      · exact .rest (Nat.lt_of_not_le hempty)
  | cons d delimiters ih =>
      rcases List.pairwise_cons.1 hordered with ⟨hbehind, hrest⟩
      rcases hwithin d List.mem_cons_self with ⟨hlow, hproper, hhigh⟩
      have htiled := ih hhigh hrest fun e he =>
        ⟨hbehind e he, (hwithin e (List.mem_cons_of_mem _ he)).2⟩
      rw [gaps_cons]
      split_ifs with hempty
      · rw [List.nil_append, Nat.le_antisymm hlow hempty]
        exact .delimiter hproper htiled
      · exact .part (Nat.lt_of_not_le hempty) hproper htiled

/-- The delimiters leave no choice of the parts. -/
theorem parts_eq_gaps {start stop : Nat} {delimiters parts : List Range}
    (h : Tiled stop start delimiters parts) : parts = gaps start stop delimiters := by
  induction h with
  | nothing => simp [gaps_nil]
  | rest hpart => simp [gaps_nil, Nat.not_le.2 hpart]
  | delimiter hdelimiter behind ih => simpa [gaps_cons] using ih
  | part hpart hdelimiter behind ih => simp [gaps_cons, Nat.not_le.2 hpart, ih]

/-- Cutting a range of a byte string at the runs of zero bytes. -/
theorem cutAtRuns_gaps {bytes : Bytes} {range : Range} (hrun : 0 < run)
    (hrange : range.start ≤ range.stop) :
    CutAtRuns run bytes range (Pattern.matchesIn (List.replicate run (.literal 0)) bytes range)
      (gaps range.start range.stop
        (Pattern.matchesIn (List.replicate run (.literal 0)) bytes range)) := by
  have hne : List.replicate run (Piece.literal 0) ≠ [] := by
    simp [Nat.ne_of_gt hrun]
  have htiled := tiled_gaps hrange
    (Pattern.pairwise_matchesIn (List.replicate run (.literal 0)) bytes range)
    fun d hd => by
      rcases Pattern.mem_matchesIn hd with ⟨hproper, -, hstart, hstop, -⟩
      exact ⟨hstart, hproper, hstop⟩
  refine ⟨rfl, htiled, htiled.exists_reassembly bytes, ?_⟩
  rintro p hp ⟨front, behind, hbytes⟩
  rcases htiled.bounds_part hp with ⟨hstart, -, hstop⟩
  -- the run begins at this place of the byte string, and it ends within the part
  have hplace : (bytes.take p.stop).drop (p.start + front.length) =
      List.replicate run 0 ++ behind := by
    rw [← List.drop_drop, ← hbytes, List.append_assoc, List.drop_left]
  have hlength := congrArg List.length hplace
  rw [List.length_drop, List.length_take, List.length_append, List.length_replicate] at hlength
  have hprefix : List.replicate run 0 <+:
      (bytes.take range.stop).drop (p.start + front.length) := by
    have hfront := ((List.take_prefix_take_left (l := bytes) hstop).drop
      (p.start + front.length))
    rw [hplace] at hfront
    exact (List.prefix_append _ _).trans hfront
  rcases Pattern.exists_mem_matchesIn hne (by omega) (Pattern.heads_replicate_iff.2 hprefix) with
    ⟨r, hr, hrbounds⟩
  rw [List.length_replicate] at hrbounds
  have hseparate := htiled.separate hr hp
  omega

/-- The pieces of a selection are the parts between the runs below it, in its direction.  A
selection without bytes is its own piece. -/
theorem nullPieces_eq (h : rope.Sound) {s : Selection} {delimiters parts : List Range}
    (hcut : CutAtRuns run rope.toBytes (s.covered rope.length) delimiters parts) :
    nullPieces run rope s =
      if (s.covered rope.length).isEmpty then [s] else parts.map (.ofRange · s.isBackward) := by
  rw [parts_eq_gaps hcut.tiled, hcut.greedy, nullPieces, h.toList_over]

/-- The pieces of a selection stay within it, in order and without a common offset. -/
theorem nullPieces_within (h : rope.Sound) {s : Selection} (hlast : s.last ≤ rope.length)
    {delimiters parts : List Range}
    (hcut : CutAtRuns run rope.toBytes (s.covered rope.length) delimiters parts) :
    (nullPieces run rope s).Pairwise (fun t u => t.last < u.first) ∧
      ∀ t ∈ nullPieces run rope s, s.first ≤ t.first ∧ t.last ≤ s.last := by
  have hbounds : ∀ p ∈ parts, (s.covered rope.length).start ≤ p.start ∧ p.start < p.stop ∧
      p.stop ≤ (s.covered rope.length).stop := fun p hp => hcut.tiled.bounds_part hp
  rw [nullPieces_eq h hcut]
  split_ifs with hempty
  · simp
  · constructor
    · exact Selection.pairwise_map_ofRange (fun p hp => (hbounds p hp).2.1)
        (hcut.tiled.pairwise_parts.imp Nat.le_of_lt) s.isBackward
    · intro t ht
      rcases List.mem_map.1 ht with ⟨p, hp, rfl⟩
      rcases hbounds p hp with ⟨hstart, hproper, hstop⟩
      exact Selection.ofRange_within hlast hproper hstart hstop s.isBackward

/-- What a set is cut into at the runs of zero bytes.  A selection below which there are bytes is
replaced by the parts between the runs below it, in its direction, and one without bytes stays;
pieces that border on each other are not merged.  Cutting is refused just when nothing is left of
any selection. -/
theorem splitNull?_cuts_runs (hrope : rope.Sound) (hset : set.Valid rope.length) (run : Nat) :
    ∃ delimiters parts : Selection → List Range,
      (∀ s ∈ set.selections, CutAtRuns (max run 1) rope.toBytes (s.covered rope.length)
        (delimiters s) (parts s)) ∧
      (set.splitNull? run rope = .error .nothingLeft ↔
        ∀ s ∈ set.selections, (s.covered rope.length).isEmpty = false ∧ parts s = []) ∧
      ((∃ s ∈ set.selections, (s.covered rope.length).isEmpty = true ∨ parts s ≠ []) →
        ∃ main, set.splitNull? run rope =
          .ok ⟨set.selections.flatMap fun s =>
            if (s.covered rope.length).isEmpty then [s]
            else (parts s).map fun p => .oriented s.isBackward p.start (p.stop - 1), main⟩) := by
  have hrun : 0 < max run 1 := by omega
  have hexists : ∀ s : Selection, ∃ delimiters parts,
      CutAtRuns (max run 1) rope.toBytes (s.covered rope.length) delimiters parts :=
    fun s => ⟨_, _, cutAtRuns_gaps hrun (s.start_covered_le_stop rope.length)⟩
  choose delimiters parts hcut using hexists
  have hwithin := fun s hs => nullPieces_within hrope (hset.last_le s hs) (hcut s)
  have hrefine := refineEach?_eq hset.separate (fun s hs => (hwithin s hs).1)
    (fun s hs => (hwithin s hs).2) .nothingLeft
  have hpieces : nullPieces (max run 1) rope = fun s =>
      if (s.covered rope.length).isEmpty then [s]
      else (parts s).map fun p => .oriented s.isBackward p.start (p.stop - 1) := by
    funext s
    rw [nullPieces_eq hrope (hcut s)]
    congr 1
    apply List.map_congr_left
    intro p hp
    exact Selection.ofRange_eq s.isBackward ((hcut s).tiled.bounds_part hp).2.1
  have hnone : set.selections.flatMap (nullPieces (max run 1) rope) = [] ↔
      ∀ s ∈ set.selections, (s.covered rope.length).isEmpty = false ∧ parts s = [] := by
    rw [hpieces, List.flatMap_eq_nil_iff]
    apply forall₂_congr
    intro s _
    split_ifs with hempty <;> simp [hempty]
  refine ⟨delimiters, parts, fun s _ => hcut s, ?_, ?_⟩
  · rw [← hnone, splitNull?, hrefine]
    split_ifs with hnil <;> simp [hnil]
  · rintro ⟨s, hs, hleft⟩
    have hsome : set.selections.flatMap (nullPieces (max run 1) rope) ≠ [] := by
      rw [Ne, hnone]
      intro hall
      rcases hall s hs with ⟨hfull, hparts⟩
      simp [hfull, hparts] at hleft
    rw [splitNull?, hrefine, if_neg hsome, hpieces]
    exact ⟨_, rfl⟩

/-- Of a backward selection two pieces are left, in front of a run and behind it, where the third
zero byte stays; of two zero bytes there is nothing left; and behind the last byte a point stays. -/
theorem splitNull?_cuts_runs_border :
    ∃ main, (⟨[⟨4, 0⟩, ⟨6, 7⟩, .point 8], 1⟩ : SelectionSet).splitNull? 2
        (Rope.ofBytes [7, 0, 0, 0, 8, 9, 0, 0]) =
      .ok ⟨[.point 0, ⟨4, 3⟩, .point 8], main⟩ := by
  have hsound := Rope.sound_ofBytes [7, 0, 0, 0, 8, 9, 0, 0]
  have hlength : (Rope.ofBytes [7, 0, 0, 0, 8, 9, 0, 0]).length = 8 := Rope.length_ofBytes _
  have hvalid : SelectionSet.Valid ⟨[⟨4, 0⟩, ⟨6, 7⟩, .point 8], 1⟩
      (Rope.ofBytes [7, 0, 0, 0, 8, 9, 0, 0]).length := by
    rw [hlength]
    exact ⟨by decide, by decide, by decide⟩
  rcases splitNull?_cuts_runs hsound hvalid 2 with ⟨delimiters, parts, hcut, -, hok⟩
  rw [hlength, Rope.toBytes_ofBytes] at hcut
  rw [hlength] at hok
  have hparts : ∀ s ∈ [(⟨4, 0⟩ : Selection), ⟨6, 7⟩, .point 8], parts s =
      gaps (s.covered 8).start (s.covered 8).stop (Pattern.matchesIn
        (List.replicate 2 (.literal 0)) [7, 0, 0, 0, 8, 9, 0, 0] (s.covered 8)) := by
    intro s hs
    rw [parts_eq_gaps (hcut s hs).tiled, (hcut s hs).greedy]
    rfl
  rcases hok ⟨.point 8, by decide, .inl (by decide)⟩ with ⟨main, hok⟩
  refine ⟨main, hok.trans ?_⟩
  rw [List.flatMap_congr fun s hs => by rw [hparts s hs]]
  congr 2

end SelectionSet

end HexEditor
