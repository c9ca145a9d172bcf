import HexEditor.Pattern.Basic
import HexEditor.Rope.Basic

/-!
# Searching a version

Matches are found lazily: a search pulls chunks out of the version into a window
as it needs them, compares the pattern with the front of the window and drops
the bytes that it has passed.  A pattern that begins with a literal lets the
search skip to the next occurrence of that byte.

Main definitions:

- `Matches` is the state of a search; `Matches.over` begins one and
  `Matches.restart` begins it again.
- `Matches.next` finds the next match.
- `Rope.findAll` lists the matches in a range.
-/

namespace HexEditor

/-- A search for a pattern within a range of one version. -/
structure Matches where
  /-- The version that is searched. -/
  rope : Rope
  /-- What is looked for. -/
  pattern : Pattern
  /-- The range that is searched, clamped to the version. -/
  range : Range
  /-- The chunks that have not been pulled in. -/
  chunks : Chunks
  /-- The bytes that have been pulled in and not yet passed. -/
  window : Bytes
  /-- The offset of the front of the window. -/
  position : Nat
  /-- Has the search come to its end? -/
  exhausted : Bool

/-- Begin the search again. -/
def Matches.restart (m : Matches) : Matches :=
  { m with
    chunks := m.rope.chunks m.range
    window := []
    position := m.range.start
    exhausted := m.pattern.isEmpty }

/-- Search a range, clamped to the version.  The empty pattern is never found. -/
def Matches.over (rope : Rope) (pattern : Pattern) (range : Range) : Matches :=
  let start := min range.start rope.length
  let stop := min (max range.stop start) rope.length
  restart
    { rope, pattern, range := ⟨start, stop⟩, chunks := ⟨[], 0, 0⟩, window := [],
      position := start, exhausted := true }

namespace Matches

/-- How many bytes the list falls short of the given number. -/
def shortfall : Nat → Bytes → Nat
  | n, [] => n
  | 0, _ => 0
  | n + 1, _ :: bytes => shortfall n bytes

/-- Take chunks until they hold the needed number of bytes.  The answer is the
bytes, the remaining walk, and whether there were enough. -/
def pull (needed : Nat) (chunks : Chunks) : Bytes × Chunks × Bool :=
  if needed = 0 then ([], chunks, true)
  else
    match _h : chunks.next? with
    | none => ([], chunks, false)
    | some (bytes, rest) =>
      let (more, rest, enough) := pull (needed - bytes.length) rest
      (bytes ++ more, rest, enough)
termination_by chunks.weight
decreasing_by have := Chunks.weight_next ‹_›; omega

/-- Pulling moves bytes out of the walk and adds none. -/
theorem pull_weight (needed : Nat) (chunks : Chunks) :
    (pull needed chunks).1.length + (pull needed chunks).2.1.weight ≤ chunks.weight := by
  fun_induction pull needed chunks with
  | case1 => simp
  | case2 => simp
  | case3 needed chunks _ bytes rest hnext more rest' enough heq ih =>
    have := Chunks.weight_next hnext
    rw [heq] at ih
    simp only [List.length_append] at ih ⊢
    omega

/-- The window with more bytes at its end.  Adding nothing leaves the window as it
is instead of copying it. -/
def extend (window more : Bytes) : Bytes :=
  if more.isEmpty then window else window ++ more

/-- Extending a window appends to it. -/
theorem extend_eq_append (window more : Bytes) : extend window more = window ++ more := by
  unfold extend
  split
  · simp_all
  · rfl

/-- How many bytes at the front of the window cannot begin a match because the
pattern begins with another literal byte. -/
def leadIn (pattern : Pattern) (window : Bytes) : Nat :=
  match pattern with
  | .literal byte :: _ => window.findIdx (· == byte)
  | _ => 0

/-- The lead-in is part of the window. -/
theorem leadIn_le_length (pattern : Pattern) (window : Bytes) :
    leadIn pattern window ≤ window.length := by
  unfold leadIn
  split
  · exact List.findIdx_le_length
  · exact Nat.zero_le _

/-- What a scan has come to: the offset of a match, if there is one, and the
state behind it. -/
structure Scan where
  /-- Where the match begins. -/
  found : Option Nat
  /-- The walk that is left. -/
  chunks : Chunks
  /-- The window that is left. -/
  window : Bytes
  /-- The offset of the front of the window. -/
  position : Nat

/-- Look for the next match from the front of the window on.  The window is
refilled to the length of the pattern before every comparison, and the scan ends
without a match when the walk cannot provide that many bytes. -/
def scan (pattern : Pattern) (chunks : Chunks) (window : Bytes) (position : Nat) : Scan :=
  let pulled := pull (shortfall pattern.length window) chunks
  let filled := extend window pulled.1
  let skipped := leadIn pattern filled
  if pulled.2.2 = false then ⟨none, pulled.2.1, filled, position⟩
  else if 0 < skipped then
    scan pattern pulled.2.1 (filled.drop skipped) (position + skipped)
  else if pattern.heads filled then
    ⟨some position, pulled.2.1, filled.drop pattern.length, position + pattern.length⟩
  else if filled.isEmpty then ⟨none, pulled.2.1, filled, position⟩
  else scan pattern pulled.2.1 (filled.drop 1) (position + 1)
termination_by chunks.weight + window.length
decreasing_by
  all_goals
    have hpull := pull_weight (shortfall pattern.length window) chunks
    have hlead := leadIn_le_length pattern filled
    have hfilled : filled.length = window.length + pulled.1.length :=
      (congrArg List.length (extend_eq_append window pulled.1)).trans List.length_append
    simp only [List.length_drop, filled, pulled, skipped] at *
  · omega
  · have hnonempty := mt List.isEmpty_iff_length_eq_zero.2 ‹¬ List.isEmpty _ = true›
    omega

/-- The next match and the search behind it.  Once a search has come to its end
it stays there until it is begun again. -/
def next (m : Matches) : Option Range × Matches :=
  if m.exhausted then (none, m)
  else
    let scanned := scan m.pattern m.chunks m.window m.position
    let rest :=
      { m with
        chunks := scanned.chunks
        window := scanned.window
        position := scanned.position
        exhausted := scanned.found.isNone }
    (scanned.found.map fun start => ⟨start, start + m.pattern.length⟩, rest)

/-- Find at most `limit` further matches, in order; `found` holds the matches
before them, latest first. -/
def takeAfter (found : List Range) : Nat → Matches → List Range
  | 0, _ => found.reverse
  | limit + 1, m =>
    match m.next with
    | (none, _) => found.reverse
    | (some range, rest) => takeAfter (range :: found) limit rest

/-- The next matches, at most `limit` of them. -/
def take (limit : Nat) (m : Matches) : List Range :=
  takeAfter [] limit m

/-- All further matches.  A version has no more matches than bytes. -/
def toList (m : Matches) : List Range :=
  m.take m.rope.length

end Matches

/-- The first matches of a pattern in a range, at most `limit` of them. -/
def Rope.findAll (rope : Rope) (pattern : Pattern) (range : Range) (limit : Nat) : List Range :=
  (Matches.over rope pattern range).take limit

end HexEditor
