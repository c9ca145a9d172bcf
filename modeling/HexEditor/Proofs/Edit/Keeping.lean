import HexEditor.Proofs.Edit.Erasing

/-!
# Which selections stay on their bytes

A selection stays on its bytes when one of the resulting selections covers just the bytes that it
has kept.  Taking the first byte of every selection always leaves the selections on their bytes.
Taking the byte in front of them or behind them does so too, as long as no two selections that keep
bytes border on each other, be it with others between them that lose theirs.

Of two selections that border on each other, one loses a byte to the other.  It is changed as if it
had kept that byte, so it reaches over to where the other one begins, and the two are merged.

Main results:

- Definition `Joined`: offsets without a gap between them.
- Definitions `Erasure.Keeps` and `Erasure.KeepsBytes`: what selections should cover.
- Definition `Erasure.Crowds`: two selections that keep bytes have no gap between them.
- Theorems `Erasure.joined_of_linked` and `Erasure.linked_of_joined`: the selections that are
  merged are those without a gap between them.
- Theorem `Rope.erase_keeps_bytes_iff`: when erasing leaves the selections on their bytes.
-/

namespace HexEditor

/-- There is no gap between the two offsets. -/
def Joined (selections : List Selection) (k l : Nat) : Prop :=
  ∀ i, (k ≤ i ∧ i ≤ l) ∨ (l ≤ i ∧ i ≤ k) → Covered selections i

section Joined

variable {selections : List Selection} {s : Selection} {k l m : Nat}

theorem Joined.symm (h : Joined selections k l) : Joined selections l k :=
  fun i hi => h i hi.symm

theorem Joined.trans (h : Joined selections k l) (h' : Joined selections l m) :
    Joined selections k m := by
  intro i hi
  by_cases hfront : (k ≤ i ∧ i ≤ l) ∨ (l ≤ i ∧ i ≤ k)
  · exact h i hfront
  · exact h' i (by omega)

/-- A selection has no gap. -/
theorem joined_of_mem (hs : s ∈ selections) (hk : s.first ≤ k ∧ k ≤ s.last)
    (hl : s.first ≤ l ∧ l ≤ s.last) : Joined selections k l :=
  fun i hi => ⟨s, hs, by omega⟩

end Joined

namespace Erasure

open Selection

/-- The byte at the offset lies below the selection, and it is not taken. -/
def Keeps (erasure : Erasure) (selections : List Selection) (length : Nat) (s : Selection)
    (offset : Nat) : Prop :=
  (s.first ≤ offset ∧ offset ≤ s.last) ∧ offset < length ∧
    ¬ erasure.Erased selections length offset

/-- Every selection that keeps a byte has stayed on its bytes: one of the resulting selections
covers the bytes that it has kept, where they have landed, and no others. -/
def KeepsBytes (erasure : Erasure) (set : SelectionSet) (length : Nat) (e : Edited) : Prop :=
  ∀ s ∈ set.selections, (∃ k, erasure.Keeps set.selections length s k) →
    ∃ t ∈ e.selections.selections, ∀ j < e.buffer.length,
      (t.first ≤ j ∧ j ≤ t.last) ↔
        ∃ k, erasure.Keeps set.selections length s k ∧
          erasure.landing set.selections length k = j

/-- Two selections both keep a byte, and there is no gap between them. -/
def Crowds (erasure : Erasure) (selections : List Selection) (length : Nat) : Prop :=
  ∃ s ∈ selections, ∃ u ∈ selections, s.last < u.first ∧
    (∃ k, erasure.Keeps selections length s k) ∧ (∃ k, erasure.Keeps selections length u k) ∧
    ∀ k, s.last < k → k < u.first → Covered selections k

variable {erasure : Erasure} {set : SelectionSet} {s t : Selection} {length k : Nat}

/-! ## Where kept bytes land -/

/-- What a selection has kept lands in what it has become. -/
theorem landing_mem_left (hset : set.Valid length) (hlength : length < lastOffset)
    (hs : s ∈ set.selections) (hkept : ¬ erasure.Erased set.selections length k)
    (hk : s.first ≤ k ∧ k ≤ s.last) :
    (erasure.left set.selections length s).first ≤ erasure.landing set.selections length k ∧
      erasure.landing set.selections length k ≤
        (erasure.left set.selections length s).last := by
  cases erasure with
  | before =>
      rcases ends_left_before hset hlength hs with ⟨hfirst, hlast⟩
      rw [hfirst, hlast]
      exact ⟨landing_mono hk.1, landing_mono hk.2⟩
  | first =>
      rcases ends_left_first hset hlength hs with ⟨hfirst, hlast⟩
      rw [hfirst, hlast]
      exact ⟨landing_mono hk.1, landing_mono hk.2⟩
  | behind =>
      rcases ends_left_behind hset hlength hs with ⟨hfirst, hlast⟩
      have hnext := landing_succ hkept
      have hlow : behind.landing set.selections length (s.first + 1) ≤
          behind.landing set.selections length (k + 1) := landing_mono (by omega)
      have hhigh : behind.landing set.selections length (k + 1) ≤
          behind.landing set.selections length (s.last + 1) := landing_mono (by omega)
      omega

/-- Between offsets that do not land apart everything is taken. -/
theorem erased_of_landing_le {low high i : Nat} {selections : List Selection}
    (h : erasure.landing selections length high ≤ erasure.landing selections length low)
    (hlow : low ≤ i) (hhigh : i < high) : erasure.Erased selections length i := by
  by_contra hkept
  have hlt := landing_lt hkept hhigh
  have hle : erasure.landing selections length low ≤ erasure.landing selections length i :=
    landing_mono hlow
  omega

/-- What lands in what a selection has become may lie outside it, but then there is no gap
between. -/
theorem joined_of_landing_mem_left (herasure : erasure ≠ first) (hset : set.Valid length)
    (hlength : length < lastOffset) (hs : s ∈ set.selections)
    (hkept : ¬ erasure.Erased set.selections length k)
    (hk : (erasure.left set.selections length s).first ≤
        erasure.landing set.selections length k ∧
      erasure.landing set.selections length k ≤
        (erasure.left set.selections length s).last) :
    Joined set.selections s.first k := by
  have hends := s.first_le_last
  cases erasure with
  | before =>
      rcases ends_left_before hset hlength hs with ⟨hfirst, hlast⟩
      rw [hfirst, hlast] at hk
      have hlow : s.first ≤ k := by
        by_contra hlt
        have hland := landing_lt hkept (Nat.lt_of_not_le hlt)
        omega
      -- behind the end all bytes up to this one are taken for the selections that follow
      intro i hi
      by_cases hwithin : i ≤ s.last
      · exact ⟨s, hs, by omega⟩
      · rcases erased_of_landing_le (i := i - 1) hk.2 (by omega) (by omega) with
          ⟨-, t, ht, htakes⟩
        have htakes' : i - 1 + 1 = t.first := htakes
        have hends' := t.first_le_last
        exact ⟨t, ht, by omega⟩
  | first => exact absurd rfl herasure
  | behind =>
      rcases ends_left_behind hset hlength hs with ⟨hfirst, hlast⟩
      have hnext := landing_succ hkept
      have hhigh : k ≤ s.last := by
        by_contra hlt
        have hland : behind.landing set.selections length (s.last + 1) ≤
          behind.landing set.selections length k := landing_mono (by omega)
        omega
      have hstart : behind.landing set.selections length (s.first + 1) ≤
          behind.landing set.selections length (k + 1) := by omega
      -- in front of the start all bytes behind this one are taken for the selections before
      intro i hi
      by_cases hwithin : s.first ≤ i
      · exact ⟨s, hs, by omega⟩
      · rcases erased_of_landing_le (i := i + 1) hstart (by omega) (by omega) with
          ⟨-, t, ht, htakes⟩
        have htakes' : i + 1 = t.last + 1 := htakes
        have hends' := t.first_le_last
        exact ⟨t, ht, by omega⟩

/-! ## What is merged -/

/-- Of two selections that border on each other, one loses a byte to the other, and they come to
overlap. -/
theorem overlaps_left (herasure : erasure ≠ first) (hset : set.Valid length)
    (hlength : length < lastOffset) (hs : s ∈ set.selections) (ht : t ∈ set.selections)
    (hborder : t.first = s.last + 1) (hbyte : t.first < length) :
    (erasure.left set.selections length s).overlaps
      (erasure.left set.selections length t) = true := by
  have hends := s.first_le_last
  have hends' := t.first_le_last
  rw [overlaps_iff]
  cases erasure with
  | before =>
      rcases ends_left_before hset hlength hs with ⟨hfirst, hlast⟩
      rcases ends_left_before hset hlength ht with ⟨hfirst', hlast'⟩
      have herased : before.Erased set.selections length s.last :=
        ⟨by omega, t, ht, hborder.symm⟩
      have hnext := landing_succ_of_erased herased
      rw [hfirst, hlast, hfirst', hlast', hborder, hnext]
      exact ⟨landing_mono (by omega), Nat.le_refl _⟩
  | first => exact absurd rfl herasure
  | behind =>
      rcases ends_left_behind hset hlength hs with ⟨hfirst, hlast⟩
      rcases ends_left_behind hset hlength ht with ⟨hfirst', hlast'⟩
      have herased : behind.Erased set.selections length t.first := ⟨hbyte, s, hs, hborder⟩
      have hnext := landing_succ_of_erased herased
      rw [hborder] at hnext hfirst'
      have hmono : behind.landing set.selections length (s.first + 1) ≤
          behind.landing set.selections length (t.last + 1) := landing_mono (by omega)
      omega

/-- What is merged with a selection has no gap to it.  An offset that two of the resulting
selections share is one where a byte has landed, or the end, and it has no gap to either. -/
theorem joined_of_linked (herasure : erasure ≠ first) (hset : set.Valid length)
    (hlength : length < lastOffset) (hs : s ∈ set.selections) {r : Selection}
    (h : Linked (set.selections.map (erasure.left set.selections length))
      (erasure.left set.selections length s) r) :
    ∃ t ∈ set.selections, erasure.left set.selections length t = r ∧
      Joined set.selections s.first t.first := by
  induction h with
  | refl =>
      have hends := s.first_le_last
      exact ⟨s, hs, rfl, joined_of_mem hs ⟨Nat.le_refl _, hends⟩ ⟨Nat.le_refl _, hends⟩⟩
  | tail _ hlink ih =>
      rcases ih with ⟨t, ht, rfl, hjoined⟩
      rcases hlink with ⟨-, hr, hoverlap⟩
      rcases List.mem_map.1 hr with ⟨u, hu, rfl⟩
      rcases overlaps_iff_exists.1 hoverlap with ⟨j, hjt, hju⟩
      rcases exists_landing_eq (hjt.2.trans (last_left_le hset hlength ht)) with
        ⟨k, -, hkept, rfl⟩
      have htk := joined_of_landing_mem_left herasure hset hlength ht hkept hjt
      have huk := joined_of_landing_mem_left herasure hset hlength hu hkept hju
      exact ⟨u, hu, rfl, hjoined.trans (htk.trans huk.symm)⟩

/-- Selections without a gap between them are merged.  The induction goes from offset to offset. -/
theorem linked_of_joined (herasure : erasure ≠ first) (hset : set.Valid length)
    (hlength : length < lastOffset) (hs : s ∈ set.selections) (ht : t ∈ set.selections)
    (hjoined : Joined set.selections s.first t.first) (hle : s.first ≤ t.first)
    (hbyte : t.first < length) :
    Linked (set.selections.map (erasure.left set.selections length))
      (erasure.left set.selections length s) (erasure.left set.selections length t) := by
  have hstep : ∀ n, s.first + n ≤ t.first → ∀ u ∈ set.selections,
      u.first ≤ s.first + n ∧ s.first + n ≤ u.last →
      Linked (set.selections.map (erasure.left set.selections length))
        (erasure.left set.selections length s) (erasure.left set.selections length u) := by
    intro n
    induction n with
    | zero =>
        intro _ u hu hcovers
        rw [hset.eq_of_shared hu hs hcovers ⟨Nat.le_refl _, s.first_le_last⟩]
        exact .refl
    | succ n ih =>
        intro hn u hu hcovers
        rcases hjoined (s.first + n) (by omega) with ⟨v, hv, hvcovers⟩
        have hlinked := ih (by omega) v hv hvcovers
        by_cases hwithin : s.first + (n + 1) ≤ v.last
        · rw [hset.eq_of_shared hu hv hcovers (by omega)]
          exact hlinked
        · have hborder : u.first = v.last + 1 := by
            by_contra hne
            have hequal : u = v := hset.eq_of_shared hu hv
              (show u.first ≤ s.first + n ∧ s.first + n ≤ u.last by omega) hvcovers
            rw [hequal] at hcovers
            omega
          have hoverlap := overlaps_left herasure hset hlength hv hu hborder (by omega)
          exact hlinked.tail ⟨List.mem_map_of_mem hv, List.mem_map_of_mem hu, hoverlap⟩
  have hends := t.first_le_last
  exact hstep (t.first - s.first) (by omega) t ht (by omega)

/-- A point loses its only byte when the first bytes are taken. -/
theorem long_of_keeps (hs : s ∈ set.selections)
    (h : ∃ k, first.Keeps set.selections length s k) : s.first < s.last := by
  rcases h with ⟨k, hk, hbyte, hkept⟩
  by_contra hpoint
  exact hkept ⟨hbyte, s, hs, show k = s.first by omega⟩

/-- The last byte of a selection that is no point is kept when the first bytes are taken, and so
what follows it lands behind it. -/
theorem landing_last_lt (hset : set.Valid length) (hs : s ∈ set.selections)
    (hlong : s.first < s.last) (hk : s.last < k) :
    first.landing set.selections length s.last < first.landing set.selections length k :=
  landing_lt (not_erased_inside (by decide) hset hs hlong (Nat.le_refl _)) hk

/-- What is merged with a selection that keeps a byte comes to lie within it when the first bytes
are taken.  Those in front of it come to end where it begins at the latest, and only points do so;
those behind it come to begin behind its end. -/
theorem within_of_linked (hset : set.Valid length) (hlength : length < lastOffset)
    (hs : s ∈ set.selections) (hkeeps : ∃ k, first.Keeps set.selections length s k)
    {r : Selection} (h : Linked (set.selections.map (first.left set.selections length))
      (first.left set.selections length s) r) :
    (first.left set.selections length s).first ≤ r.first ∧
      r.last ≤ (first.left set.selections length s).last := by
  have hends := s.first_le_last
  rcases ends_left_first hset hlength hs with ⟨hfirst, hlast⟩
  have hlong := long_of_keeps hs hkeeps
  have hmono : first.landing set.selections length s.first ≤
      first.landing set.selections length s.last := landing_mono hends
  induction h with
  | refl => exact ⟨Nat.le_refl _, Nat.le_refl _⟩
  | @tail r _ _ hlink ih =>
      rcases hlink with ⟨-, hr', hoverlap⟩
      rcases List.mem_map.1 hr' with ⟨t, ht, rfl⟩
      rcases ends_left_first hset hlength ht with ⟨hfirst', hlast'⟩
      rcases overlaps_iff.1 hoverlap with ⟨hrt, htr⟩
      have hends' := t.first_le_last
      have hrends := r.first_le_last
      by_cases hbehind : s.last < t.first
      · have hlt := landing_last_lt hset hs hlong hbehind
        omega
      · by_cases hfront : t.last < s.first
        · have hle : first.landing set.selections length t.last ≤
              first.landing set.selections length s.first := landing_mono hfront.le
          by_cases hlong' : t.first < t.last
          · have hlt := landing_last_lt hset ht hlong' hfront
            omega
          · have hpoint : t.first = t.last := by omega
            rw [hpoint] at hfirst'
            omega
        · rw [hset.eq_of_shared ht hs (show t.first ≤ max s.first t.first ∧
            max s.first t.first ≤ t.last by omega) (by omega)]
          exact ⟨Nat.le_refl _, Nat.le_refl _⟩

/-! ## Staying on the bytes -/

/-- If nothing lands in what is merged with a selection but what lies below it, then the selection
stays on its bytes. -/
theorem exists_covers_kept (hset : set.Valid length) (hlength : length < lastOffset)
    (hs : s ∈ set.selections)
    (honly : ∀ r, Linked (set.selections.map (erasure.left set.selections length))
        (erasure.left set.selections length s) r →
      ∀ k < length, ¬ erasure.Erased set.selections length k →
        r.first ≤ erasure.landing set.selections length k ∧
          erasure.landing set.selections length k ≤ r.last → s.first ≤ k ∧ k ≤ s.last) :
    ∃ t ∈ (SelectionSet.ofList (set.selections.map (erasure.left set.selections length))
        set.main).selections,
      ∀ j < erasure.landing set.selections length length, (t.first ≤ j ∧ j ≤ t.last) ↔
        ∃ k, erasure.Keeps set.selections length s k ∧
          erasure.landing set.selections length k = j := by
  have hleft := List.mem_map_of_mem (f := erasure.left set.selections length) hs
  have hends := (erasure.left set.selections length s).first_le_last
  rcases SelectionSet.exists_mem_ofList hleft set.main with ⟨t, ht, hfirst, hlast⟩
  refine ⟨t, ht, fun j hj => ?_⟩
  rw [SelectionSet.mem_ofList_iff ht hleft ⟨hfirst, by omega⟩]
  constructor
  · rintro ⟨r, -, hlinked, hcovers⟩
    rcases exists_landing_eq hj.le with ⟨k, hle, hkept, rfl⟩
    have hbyte : k < length := by
      apply Nat.lt_of_le_of_ne hle
      rintro rfl
      exact Nat.lt_irrefl _ hj
    exact ⟨k, ⟨honly r hlinked k hbyte hkept hcovers, hbyte, hkept⟩, rfl⟩
  · rintro ⟨k, ⟨hk, -, hkept⟩, rfl⟩
    exact ⟨_, hleft, .refl, landing_mem_left hset hlength hs hkept hk⟩

/-- When the first bytes are taken, what lands in what is merged with a selection that keeps a byte
was kept by this selection. -/
theorem mem_of_linked_first (hset : set.Valid length) (hlength : length < lastOffset)
    (hs : s ∈ set.selections) (hkeeps : ∃ k, first.Keeps set.selections length s k)
    {r : Selection} (h : Linked (set.selections.map (first.left set.selections length))
      (first.left set.selections length s) r) (hkept : ¬ first.Erased set.selections length k)
    (hk : r.first ≤ first.landing set.selections length k ∧
      first.landing set.selections length k ≤ r.last) : s.first ≤ k ∧ k ≤ s.last := by
  rcases within_of_linked hset hlength hs hkeeps h with ⟨hlow, hhigh⟩
  rcases ends_left_first hset hlength hs with ⟨hfirst, hlast⟩
  constructor
  · by_contra hfront
    have hlt := landing_lt hkept (Nat.lt_of_not_le hfront)
    omega
  · by_contra hbehind
    have hlt := landing_last_lt hset hs (long_of_keeps hs hkeeps) (Nat.lt_of_not_le hbehind)
    omega

/-- When the bytes in front or behind are taken, the same holds if there is a gap between any two
selections that keep a byte. -/
theorem mem_of_linked (herasure : erasure ≠ first) (hset : set.Valid length)
    (hlength : length < lastOffset) (hclear : ¬ erasure.Crowds set.selections length)
    (hs : s ∈ set.selections) (hkeeps : ∃ k, erasure.Keeps set.selections length s k)
    {r : Selection} (h : Linked (set.selections.map (erasure.left set.selections length))
      (erasure.left set.selections length s) r) (hbyte : k < length)
    (hkept : ¬ erasure.Erased set.selections length k)
    (hk : r.first ≤ erasure.landing set.selections length k ∧
      erasure.landing set.selections length k ≤ r.last) : s.first ≤ k ∧ k ≤ s.last := by
  have hends := s.first_le_last
  rcases joined_of_linked herasure hset hlength hs h with ⟨t, ht, rfl, hjoined⟩
  have hgap := hjoined.trans (joined_of_landing_mem_left herasure hset hlength ht hkept hk)
  rcases hgap k (by omega) with ⟨u, hu, hucovers⟩
  have hkeeps' : ∃ k, erasure.Keeps set.selections length u k := ⟨k, hucovers, hbyte, hkept⟩
  by_contra houtside
  apply hclear
  by_cases hbehind : s.last < k
  · have hlt : s.last < u.first := by
      by_contra hle
      have hequal : u = s := hset.eq_of_shared hu hs
        (show u.first ≤ s.last ∧ s.last ≤ u.last by omega) (by omega)
      rw [hequal] at hucovers
      omega
    exact ⟨s, hs, u, hu, hlt, hkeeps, hkeeps', fun i hlow hhigh => hgap i (by omega)⟩
  · have hlt : u.last < s.first := by
      by_contra hle
      have hequal : u = s := hset.eq_of_shared hu hs
        (show u.first ≤ s.first ∧ s.first ≤ u.last by omega) (by omega)
      rw [hequal] at hucovers
      omega
    exact ⟨u, hu, s, hs, hlt, hkeeps', hkeeps, fun i hlow hhigh => hgap i (by omega)⟩

/-- Two selections that keep bytes and have no gap between them are merged, and the merged one
covers what both have kept. -/
theorem not_keepsBytes_of_crowds (herasure : erasure ≠ first) (hset : set.Valid length)
    (hlength : length < lastOffset) (hcrowds : erasure.Crowds set.selections length) {e : Edited}
    (hbuffer : e.buffer.length = erasure.landing set.selections length length)
    (hselections : e.selections = SelectionSet.ofList
      (set.selections.map (erasure.left set.selections length)) set.main) :
    ¬ erasure.KeepsBytes set length e := by
  rcases hcrowds with ⟨s, hs, u, hu, hlt, ⟨k, hk⟩, ⟨l, hl⟩, hgap⟩
  intro hall
  rcases hall s hs ⟨k, hk⟩ with ⟨t, ht, hcovers⟩
  rw [hbuffer] at hcovers
  rw [hselections] at ht
  rcases hk with ⟨hks, hkbyte, hkkept⟩
  rcases hl with ⟨hlu, hlbyte, hlkept⟩
  have hkt := (hcovers _ (landing_lt hkkept hkbyte)).2 ⟨k, ⟨hks, hkbyte, hkkept⟩, rfl⟩
  -- this is what the first of them has gone into
  have hleft := List.mem_map_of_mem (f := erasure.left set.selections length) hs
  have hends := (erasure.left set.selections length s).first_le_last
  rcases SelectionSet.exists_mem_ofList hleft set.main with ⟨r, hr, hfirst, hlast⟩
  have hkleft := landing_mem_left hset hlength hs hkkept hks
  have hsame : r = t := eq_of_common_offset (f := id)
    (SelectionSet.pairwise_ofList _ set.main) hr ht
    (show r.first ≤ erasure.landing set.selections length k ∧
      erasure.landing set.selections length k ≤ r.last by omega) hkt
  -- and so has the other one
  have hjoined : Joined set.selections s.first u.first := by
    intro i hi
    by_cases hwithin : i ≤ s.last
    · exact ⟨s, hs, by omega⟩
    · by_cases hend : i = u.first
      · exact ⟨u, hu, hend.ge, by omega⟩
      · exact hgap i (by omega) (by omega)
  have hlinked := linked_of_joined herasure hset hlength hs hu hjoined (by omega) (by omega)
  have hlt' : t.first ≤ erasure.landing set.selections length l ∧
      erasure.landing set.selections length l ≤ t.last := by
    rw [← hsame, SelectionSet.mem_ofList_iff hr hleft ⟨hfirst, by omega⟩]
    exact ⟨_, List.mem_map_of_mem hu, hlinked, landing_mem_left hset hlength hu hlkept hlu⟩
  rcases (hcovers _ (landing_lt hlkept hlbyte)).1 hlt' with ⟨m, ⟨hms, -, hmkept⟩, hland⟩
  have hland' := landing_lt hmkept (show m < l by omega)
  omega

end Erasure

namespace Rope

/-- Erasing one byte for every selection leaves the bytes that are not taken.  The selections that
keep bytes stay on them if the first byte of each is taken, or else if there is a gap between any
two of them. -/
theorem erase_keeps_bytes_iff {rope : Rope} {set : SelectionSet} (h : rope.Sound)
    (hset : set.Valid rope.length) (hlength : rope.length < lastOffset) (erasure : Erasure) :
    ∃ e, erasure.apply rope set = .ok e ∧
      e.buffer.toBytes =
        (rope.toBytes.zipIdx.filter fun b =>
          ¬ erasure.Erased set.selections rope.length b.2).map Prod.fst ∧
      (erasure.KeepsBytes set rope.length e ↔
        erasure = .first ∨ ¬ erasure.Crowds set.selections rope.length) := by
  rcases h.exists_erasure hset hlength erasure with ⟨next, -, hbytes, hbuffer, hok⟩
  refine ⟨_, hok, hbytes, ?_⟩
  constructor
  · intro hkeeps
    by_contra hneither
    rw [not_or, not_not] at hneither
    exact Erasure.not_keepsBytes_of_crowds hneither.1 hset hlength hneither.2 hbuffer rfl hkeeps
  · intro hclear s hs hkeeps
    rw [hbuffer]
    apply Erasure.exists_covers_kept hset hlength hs
    intro r hlinked k hbyte hkept hk
    by_cases herasure : erasure = .first
    · subst herasure
      exact Erasure.mem_of_linked_first hset hlength hs hkeeps hlinked hkept hk
    · exact Erasure.mem_of_linked herasure hset hlength (hclear.resolve_left herasure) hs hkeeps
        hlinked hbyte hkept hk

/-- Two selections border on each other.  Both keep their last byte when the first ones are taken,
and they stay on them. -/
theorem erase_keeps_bytes_iff_first :
    ∃ e, (Rope.ofBytes [0, 1, 2, 3, 4]).eraseAt ⟨[⟨0, 1⟩, ⟨2, 3⟩], 0⟩ .before = .ok e ∧
      e.buffer.toBytes = [1, 3, 4] ∧
      Erasure.first.KeepsBytes ⟨[⟨0, 1⟩, ⟨2, 3⟩], 0⟩ 5 e := by
  have hsound := sound_ofBytes [0, 1, 2, 3, 4]
  have hlength : (Rope.ofBytes [0, 1, 2, 3, 4]).length = 5 := length_ofBytes _
  have hvalid : SelectionSet.Valid ⟨[⟨0, 1⟩, ⟨2, 3⟩], 0⟩
      (Rope.ofBytes [0, 1, 2, 3, 4]).length := by
    rw [hlength]
    exact ⟨by decide, by decide, by decide⟩
  rcases erase_keeps_bytes_iff hsound hvalid (by rw [hlength]; decide) .first with
    ⟨e, he, hbytes, hkeeps⟩
  rw [toBytes_ofBytes, hlength] at hbytes
  rw [hlength] at hkeeps
  exact ⟨e, he, hbytes.trans (by decide), hkeeps.2 (.inl rfl)⟩

/-- Two selections border on each other.  The byte in front of the second one is the last byte of
the first one; both keep a byte, but they are merged. -/
theorem eraseBefore_merges_bordering :
    ∃ e, (Rope.ofBytes [0, 1, 2, 3, 4]).eraseBefore ⟨[⟨0, 1⟩, ⟨2, 3⟩], 0⟩ .before = .ok e ∧
      e.buffer.toBytes = [0, 2, 3, 4] ∧ e.selections = ⟨[⟨0, 2⟩], 0⟩ ∧
      ¬ Erasure.before.KeepsBytes ⟨[⟨0, 1⟩, ⟨2, 3⟩], 0⟩ 5 e := by
  have hsound := sound_ofBytes [0, 1, 2, 3, 4]
  have hlength : (Rope.ofBytes [0, 1, 2, 3, 4]).length = 5 := length_ofBytes _
  have hvalid : SelectionSet.Valid ⟨[⟨0, 1⟩, ⟨2, 3⟩], 0⟩
      (Rope.ofBytes [0, 1, 2, 3, 4]).length := by
    rw [hlength]
    exact ⟨by decide, by decide, by decide⟩
  rcases hsound.exists_erasure hvalid (by rw [hlength]; decide) .before with
    ⟨next, -, hbytes, hbuffer, hok⟩
  rw [toBytes_ofBytes, hlength] at hbytes
  rw [hlength] at hbuffer hok hvalid
  have hleft : [⟨0, 1⟩, ⟨2, 3⟩].map (Erasure.before.left [⟨0, 1⟩, ⟨2, 3⟩] 5) =
      [⟨0, 1⟩, ⟨1, 2⟩] := by decide
  have hmerged : SelectionSet.ofList [⟨0, 1⟩, ⟨1, 2⟩] 0 = ⟨[⟨0, 2⟩], 0⟩ := by
    simp [SelectionSet.ofList, List.mergeSort, SelectionSet.mergeNext, Selection.first,
      Selection.last, Selection.overlaps, Selection.cover, Selection.oriented,
      Selection.isBackward, List.findIdx, List.findIdx.go]
  refine ⟨_, hok, hbytes.trans (by decide), ?_, ?_⟩
  · dsimp only
    rw [hleft, hmerged]
  apply Erasure.not_keepsBytes_of_crowds (by decide) hvalid (by decide) ?_ hbuffer rfl
  refine ⟨⟨0, 1⟩, by decide, ⟨2, 3⟩, by decide, by decide, ⟨0, ?_⟩, ⟨2, ?_⟩, ?_⟩
  · exact ⟨by decide, by decide, by decide⟩
  · exact ⟨by decide, by decide, by decide⟩
  · intro k hlow hhigh
    have hlow' : 1 < k := hlow
    have hhigh' : k < 2 := hhigh
    omega

end Rope

end HexEditor
