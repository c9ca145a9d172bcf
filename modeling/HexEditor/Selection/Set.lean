import HexEditor.Selection.Basic

/-!
# Sets of selections

The editor works on several selections at once.  A set keeps them in the order of
their first offsets and without overlaps: selections that share an offset become
one.  One of them is the main selection, and it stays the main one through every
change, also when it is merged or split.

Main definitions:

- `SelectionSet.ofList` makes a set of any selections.
- `SelectionSet.replaceEach` and `refineEach?` replace every selection by others;
  most other operations are instances of them.
- `SelectionSet.moveCursors`, `moveBy` and `jumpTo` move or extend.
- `SelectionSet.keep`, `drop?`, `cycleForward` and `cycleBackward` choose among
  the selections.
-/

namespace HexEditor

/-- Why an operation on selections was refused. -/
inductive SelectionError where
  /-- The only selection cannot be dropped. -/
  | lastSelection
  /-- Splitting would leave no piece. -/
  | nothingLeft
  /-- The pattern does not occur inside the selections. -/
  | noMatchInside
  /-- The pattern does not occur in the ranges that were searched. -/
  | notFound
deriving DecidableEq

/-- The wording of a refusal. -/
def SelectionError.message : SelectionError → Text
  | lastSelection => ascii "cannot remove the last selection"
  | nothingLeft => ascii "split would leave no selection"
  | noMatchInside => ascii "no match inside the selections"
  | notFound => ascii "pattern not found"

/-- Selections in order, with the index of the main one. -/
structure SelectionSet where
  /-- The selections in the order of their first offsets. -/
  selections : List Selection
  /-- The index of the main selection. -/
  main : Nat
deriving DecidableEq

namespace SelectionSet

/-- The set of the point at the start. -/
def start : SelectionSet := ⟨[.point 0], 0⟩

instance : Inhabited SelectionSet := ⟨start⟩

/-- How many selections there are. -/
def size (set : SelectionSet) : Nat := set.selections.length

/-- The main selection. -/
def mainSelection (set : SelectionSet) : Selection :=
  set.selections.getD set.main (.point 0)

/-! ## Making a set -/

/-- Add the next selection, in the order of first offsets, to those merged so
far, latest first.  Every merged selection is accompanied by whether the main
one went into it. -/
def mergeNext (merged : List (Selection × Bool)) (next : Selection × Bool) :
    List (Selection × Bool) :=
  match merged with
  | [] => [next]
  | latest :: earlier =>
    if latest.1.overlaps next.1 then
      (latest.1.cover next.1, latest.2 || next.2) :: earlier
    else next :: merged

/-- The set of the given selections, in any order and with overlaps.  An index
behind the last selection means the last one, and no selections at all give the
set of the point at the start. -/
def ofList (selections : List Selection) (main : Nat) : SelectionSet :=
  if selections.isEmpty then start
  else
    let main := min main (selections.length - 1)
    let marked := selections.zipIdx.map fun (s, i) => (s, i == main)
    let ordered := marked.mergeSort fun a b => a.1.first ≤ b.1.first
    let merged := (ordered.foldl mergeNext []).reverse
    ⟨merged.map (·.1), merged.findIdx (·.2)⟩

/-- The set that is left when the selections of a set, in order, are replaced by
the given ones.  The main selection becomes the first replacement of the old main
one; when that has none, it is the one that follows, or else the last. -/
def ofReplacements (replacements : List (List Selection)) (main : Nat) : SelectionSet :=
  ofList replacements.flatten (replacements.take main).flatten.length

/-- Replace every selection by others. -/
def replaceEach (set : SelectionSet) (f : Selection → List Selection) : SelectionSet :=
  ofReplacements (set.selections.map f) set.main

/-- Replace every selection by others, unless nothing at all would be left. -/
def refineEach? (set : SelectionSet) (f : Selection → List Selection)
    (otherwise : SelectionError) : Except SelectionError SelectionSet :=
  let replacements := set.selections.map f
  if replacements.all List.isEmpty then .error otherwise
  else .ok (ofReplacements replacements set.main)

/-- The set with all ends moved back to the given length. -/
def clamped (set : SelectionSet) (length : Nat) : SelectionSet :=
  set.replaceEach fun s => [s.clamped length]

/-! ## Moving -/

/-- Move every cursor to its target, or to the given length if the target lies
behind.  Extending leaves the anchors, and otherwise they follow the cursors. -/
def moveCursors (set : SelectionSet) (target : Nat → Nat) (extend : Bool) (length : Nat) :
    SelectionSet :=
  set.replaceEach fun s =>
    let cursor := min (target s.cursor) length
    [if extend then ⟨min s.anchor length, cursor⟩ else .point cursor]

/-- Move every cursor by a displacement. -/
def moveBy (set : SelectionSet) (displacement : Int) (extend : Bool) (length : Nat) :
    SelectionSet :=
  set.moveCursors (shift displacement) extend length

/-- Move every cursor to one offset. -/
def jumpTo (set : SelectionSet) (target : Nat) (extend : Bool) (length : Nat) : SelectionSet :=
  set.moveCursors (fun _ => target) extend length

/-- Reduce every selection to its cursor. -/
def collapse (set : SelectionSet) : SelectionSet :=
  set.replaceEach fun s => [s.collapsed]

/-- Exchange the ends of every selection. -/
def swapEnds (set : SelectionSet) : SelectionSet :=
  set.replaceEach fun s => [s.swapped]

/-- One selection of all bytes. -/
def all (length : Nat) : SelectionSet :=
  ofList [⟨0, length - 1⟩] 0

/-! ## Choosing -/

/-- Keep one selection, the last one if the index lies behind it. -/
def keep (set : SelectionSet) (index : Nat) : SelectionSet :=
  ofList [set.selections.getD (min index (set.size - 1)) (.point 0)] 0

/-- Drop one selection, the last one if the index lies behind it.  The only
selection cannot be dropped. -/
def drop? (set : SelectionSet) (index : Nat) : Except SelectionError SelectionSet :=
  if set.size ≤ 1 then .error .lastSelection
  else
    let index := min index (set.size - 1)
    let main := if index < set.main then set.main - 1 else set.main
    .ok (ofList (set.selections.eraseIdx index) main)

/-- Make a later selection the main one, going round at the end. -/
def cycleForward (set : SelectionSet) (steps : Nat) : SelectionSet :=
  { set with main := (set.main + steps % set.size) % set.size }

/-- Make an earlier selection the main one, going round at the start. -/
def cycleBackward (set : SelectionSet) (steps : Nat) : SelectionSet :=
  { set with main := (set.main + set.size - steps % set.size) % set.size }

/-- The bytes below each selection in a file of the given length. -/
def coveredRanges (set : SelectionSet) (length : Nat) : List Range :=
  set.selections.map (·.covered length)

end SelectionSet

end HexEditor
