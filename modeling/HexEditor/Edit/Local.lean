import HexEditor.Rope.Basic
import HexEditor.Selection.Set

/-!
# Editing at several places at once

Every selection contributes one local edit, described in the offsets of the
version before any of them.  The edits are carried out from the last to the
first, so that the offsets of those still to come stay right, and the selections
are moved by what the edits before them have added or removed.

Main definitions:

- `LocalEdit` is a replacement together with the selection that it leaves.
- `Edited` is a new version with its selections.
- `Rope.applyEdits` carries out the local edits of a set of selections.
-/

namespace HexEditor

/-- The replacement of one range. -/
structure LocalEdit where
  /-- The range that is replaced. -/
  range : Range
  /-- The bytes that take its place. -/
  replacement : Bytes
  /-- The selection that is left if nothing else is edited. -/
  after : Selection

namespace LocalEdit

/-- By how much the edit moves what comes behind it. -/
def growth (e : LocalEdit) : Int :=
  (e.replacement.length : Int) - e.range.size

/-- Does the edit replace nothing by nothing? -/
def isIdle (e : LocalEdit) : Bool :=
  e.range.isEmpty && e.replacement.isEmpty

/-- Add the selection that an edit leaves to those of the edits before it, latest
first.  The second component is the growth of all edits so far. -/
def moveNext (moved : List Selection × Int) (e : LocalEdit) : List Selection × Int :=
  (e.after.shifted moved.2 :: moved.1, moved.2 + e.growth)

/-- The selections that the edits leave, each moved by the growth of the edits
before its own. -/
def remaining (edits : List LocalEdit) : List Selection :=
  (edits.foldl moveNext ([], 0)).1.reverse

end LocalEdit

/-- A version and the selections over it after an edit. -/
structure Edited where
  /-- The new version. -/
  buffer : Rope
  /-- The selections in the offsets of the new version. -/
  selections : SelectionSet

namespace Rope

/-- Carry out the edits from the last to the first.  Idle edits are passed over. -/
def spliceAll (rope : Rope) (edits : List LocalEdit) : Except RangeError Rope :=
  edits.foldrM (fun e rope => if e.isIdle then .ok rope else rope.splice e.range e.replacement)
    rope

/-- Carry out one local edit for each selection, which is given with its index. -/
def applyEdits (rope : Rope) (set : SelectionSet) (edit : Selection → Nat → LocalEdit) :
    Except RangeError Edited := do
  let edits := set.selections.zipIdx.map fun (s, i) => edit s i
  let next ← rope.spliceAll edits
  return ⟨next, (SelectionSet.ofList (LocalEdit.remaining edits) set.main).clamped next.length⟩

end Rope

end HexEditor
