import HexEditor.Text

/-!
# Registers

A register holds what was copied from a set of selections, one entry for each of
them.  Registers have one-byte names and begin empty.

Main definitions:

- `Registers` with `write`, `read` and `has`.
- `Registers.entryFor` chooses the entry that one selection receives.
-/

namespace HexEditor

/-- Named slots of copied bytes. -/
structure Registers where
  /-- The slots that have been written, each name once. -/
  slots : List (UInt8 × List Bytes)
deriving DecidableEq

namespace Registers

/-- No register has been written. -/
def empty : Registers := ⟨[]⟩

/-- The register that copying and deleting write to. -/
def defaultName : UInt8 := 34

/-- Replace the entries of a register. -/
def write (r : Registers) (name : UInt8) (entries : List Bytes) : Registers :=
  ⟨(name, entries) :: r.slots.filter fun slot => slot.1 != name⟩

/-- Has the register been written? -/
def has (r : Registers) (name : UInt8) : Bool :=
  r.slots.any fun slot => slot.1 == name

/-- The entries of a register; one that has not been written has none. -/
def read (r : Registers) (name : UInt8) : List Bytes :=
  ((r.slots.find? fun slot => slot.1 == name).map (·.2)).getD []

/-- The entry for the selection of the given index.  The entries go round, so a
single entry serves all selections. -/
def entryFor (entries : List Bytes) (index : Nat) : Bytes :=
  entries.getD (index % entries.length) []

end Registers

end HexEditor
