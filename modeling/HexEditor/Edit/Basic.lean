import HexEditor.Edit.Local
import HexEditor.Registers

/-!
# The edit operations

All operations act on every selection of a set at once and give a new version
together with the selections over it.  Bytes are inserted on either side of a
selection: in front of it or behind it.

Main definitions:

- `Rope.yank` reads the bytes below each selection.
- `Rope.delete`, `Rope.insert`, `Rope.paste` and `Rope.overwrite`.
- `Rope.eraseBefore` and `Rope.eraseAt` remove single bytes at the insertion
  points, as the two erasing keys do.
- `pasteSize?` foretells how much a paste adds.
-/

namespace HexEditor

/-- The two sides of a selection at which bytes can be inserted. -/
inductive Side where
  /-- In front of the selection. -/
  | before
  /-- Behind the selection. -/
  | after
deriving DecidableEq

/-- The insertion point of a selection in a file of the given length. -/
def Selection.insertionPoint (s : Selection) (side : Side) (length : Nat) : Nat :=
  match side with
  | .before => min s.first length
  | .after => min s.behind length

/-- One paste may add at most this many bytes. -/
def pasteLimit : Nat := 0x40000000

/-- How many bytes a paste adds, if that is within the limit.  The running total
is compared before each step by a division, so that no product leaves the
words.  A count of zero means one. -/
def pasteSize? (set : SelectionSet) (entries : List Bytes) (count : Nat) : Option Nat :=
  if entries.isEmpty then some 0
  else
    (List.range set.size).foldlM (addEntry entries (max count 1)) 0
where
  /-- Add what the selection of the given index receives. -/
  addEntry (entries : List Bytes) (count total index : Nat) : Option Nat :=
    let n := (Registers.entryFor entries index).length
    if n = 0 then some total
    else if (pasteLimit - total) / n < count then none
    else some (total + n * count)

namespace Rope

/-- The bytes below each selection. -/
def yank (rope : Rope) (set : SelectionSet) : Except RangeError (List Bytes) :=
  (set.coveredRanges rope.length).mapM rope.slice

/-- Remove the bytes below every selection.  Each selection that covered bytes is
left as the point where they began. -/
def delete (rope : Rope) (set : SelectionSet) : Except RangeError Edited :=
  rope.applyEdits set fun s _ =>
    let covered := s.covered rope.length
    ⟨covered, [], if covered.isEmpty then s else .point covered.start⟩

/-- Insert the bytes at every selection.  In front, they push the selection to
the right; behind, the selection grows to include them. -/
def insert (rope : Rope) (set : SelectionSet) (bytes : Bytes) (side : Side) :
    Except RangeError Edited :=
  rope.applyEdits set fun s _ =>
    let point := s.insertionPoint side rope.length
    let n := bytes.length
    let after :=
      if n = 0 then s
      else
        match side with
        | .before => ⟨wrap (s.anchor + n), wrap (s.cursor + n)⟩
        | .after => .oriented s.isBackward (min s.first point) (point + n - 1)
    ⟨⟨point, point⟩, bytes, after⟩

/-- The bytes of an entry that is pasted the given number of times. -/
def repeated (count : Nat) (entry : Bytes) : Bytes :=
  if entry.isEmpty then [] else (List.replicate count entry).flatten

/-- Paste an entry at every selection, repeated `count` times; zero means once.
The pasted bytes become the selection.  Without entries nothing happens. -/
def paste (rope : Rope) (set : SelectionSet) (entries : List Bytes) (side : Side)
    (count : Nat) : Except RangeError Edited :=
  if entries.isEmpty then .ok ⟨rope, set⟩
  else
    rope.applyEdits set fun s i =>
      let content := repeated (max count 1) (Registers.entryFor entries i)
      let point := s.insertionPoint side rope.length
      ⟨⟨point, point⟩, content,
        if content.isEmpty then s else .ofRange ⟨point, point + content.length⟩ false⟩

/-- Replace every byte below a selection by the given one.  The selections stay. -/
def overwrite (rope : Rope) (set : SelectionSet) (byte : UInt8) : Except RangeError Edited :=
  rope.applyEdits set fun s _ =>
    let covered := s.covered rope.length
    ⟨covered, List.replicate covered.size byte, s⟩

/-- Remove the byte in front of every insertion point.  A selection that loses
its last covered byte in this way becomes shorter by one. -/
def eraseBefore (rope : Rope) (set : SelectionSet) (side : Side) : Except RangeError Edited :=
  rope.applyEdits set fun s _ =>
    let point := s.insertionPoint side rope.length
    if point = 0 then ⟨⟨0, 0⟩, [], s⟩
    else
      let after :=
        if side = .before ∨ point - 1 < s.first then s.shifted (-1)
        else if s.first < s.last then
          .oriented s.isBackward s.first (min s.last point - 1)
        else .point s.first
      ⟨⟨point - 1, point⟩, [], after⟩

/-- Remove the byte at every insertion point.  In front of a selection that is
its first byte, and the selection becomes shorter by one. -/
def eraseAt (rope : Rope) (set : SelectionSet) (side : Side) : Except RangeError Edited :=
  rope.applyEdits set fun s _ =>
    let point := match side with
      | .before => s.first
      | .after => s.behind
    if rope.length ≤ point then ⟨⟨rope.length, rope.length⟩, [], s⟩
    else
      let after :=
        match side with
        | .before =>
          if s.first < s.last then .oriented s.isBackward s.first (s.last - 1)
          else .point s.first
        | .after => s
      ⟨⟨point, point + 1⟩, [], after⟩

end Rope

end HexEditor
