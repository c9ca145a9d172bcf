import HexEditor.Pattern.Search
import HexEditor.Selection.Set

/-!
# Splitting selections and selecting matches

A set of selections is refined by cutting each selection into pieces: of a fixed
width, at runs of zero bytes, or down to the matches of a pattern.  Matches can
also be selected anew inside any ranges.  The pieces of a selection keep its
direction.

Main definitions:

- `SelectionSet.splitWidth`, `splitNull?` and `splitPattern?`.
- `SelectionSet.selectMatching?` selects all matches inside given ranges.
-/

namespace HexEditor

namespace SelectionSet

/-! ## Pieces of one width -/

/-- Cut a selection into pieces of the given width, from an offset on; `made`
holds the pieces before it, latest first.  Offsets are words, so a width close to
their number leads back below the selection before its end is met.  The rounds
are bounded: after as many rounds as there are words the offset has come back to
an earlier one. -/
def widthPieces (width : Nat) (s : Selection) (made : List Selection) :
    (rounds offset : Nat) → List Selection
  | 0, _ => made.reverse
  | rounds + 1, offset =>
    if s.last < offset then made.reverse
    else
      let last := min s.last (wrap (offset + width - 1))
      let piece := Selection.withDirection s.isBackward ⟨offset, last⟩
      if last = s.last then (piece :: made).reverse
      else widthPieces width s (piece :: made) rounds (wrap (offset + width))

/-- Cut every selection into pieces of the given width; the last piece of a
selection may be shorter.  A width of zero means one. -/
def splitWidth (set : SelectionSet) (width : Nat) : SelectionSet :=
  set.replaceEach fun s => widthPieces (max width 1) s [] offsetCount s.first

/-! ## Pieces between delimiters -/

/-- The parts of a range that lie between the given delimiters, which are in
order and do not overlap.  Empty parts are left out. -/
def gaps (start stop : Nat) (delimiters : List Range) : List Range :=
  let starts := start :: delimiters.map (·.stop)
  let stops := delimiters.map (·.start) ++ [stop]
  (List.zipWith Range.mk starts stops).filter fun r => !r.isEmpty

/-- The pieces of a selection between the runs of zero bytes.  A selection
without bytes is its own piece. -/
def nullPieces (run : Nat) (rope : Rope) (s : Selection) : List Selection :=
  let covered := s.covered rope.length
  if covered.isEmpty then [s]
  else
    let delimiters := (Matches.over rope (List.replicate run (.literal 0)) covered).toList
    (gaps covered.start covered.stop delimiters).map (Selection.ofRange · s.isBackward)

/-- Cut every selection at the runs of the given number of zero bytes and drop
the runs.  A run of zero means one. -/
def splitNull? (set : SelectionSet) (run : Nat) (rope : Rope) :
    Except SelectionError SelectionSet :=
  set.refineEach? (nullPieces (max run 1) rope) .nothingLeft

/-! ## Matches -/

/-- The matches of a pattern below a selection, as selections. -/
def matchPieces (pattern : Pattern) (rope : Rope) (s : Selection) : List Selection :=
  (Matches.over rope pattern (s.covered rope.length)).toList.map
    (Selection.ofRange · s.isBackward)

/-- Reduce every selection to the matches of a pattern below it. -/
def splitPattern? (set : SelectionSet) (pattern : Pattern) (rope : Rope) :
    Except SelectionError SelectionSet :=
  set.refineEach? (matchPieces pattern rope) .noMatchInside

/-- Select the matches of a pattern inside the given ranges.  The main selection
becomes the first match that starts no earlier than the old main one, or the very
first match when there is none. -/
def selectMatching? (set : SelectionSet) (pattern : Pattern) (rope : Rope)
    (ranges : List Range) : Except SelectionError SelectionSet :=
  let found := (ranges.filter fun r => !r.isEmpty).flatMap fun r =>
    (Matches.over rope pattern r).toList
  if found.isEmpty then .error .notFound
  else
    let main := (found.findIdx? fun r => set.mainSelection.first ≤ r.start).getD 0
    .ok (ofList (found.map (Selection.ofRange · false)) main)

end SelectionSet

end HexEditor
