import HexEditor.Text

/-!
# Paths

A path is a byte string whose components are separated by slashes.  It is read in
two ways.  To find a file, its components are walked one after the other.  To
tell whether two paths mean the same file without looking at the disk, both are
brought into a normal form: empty and `.` components vanish and `..` takes the
component before it away.

Main definitions:

- `Path.names`, `Path.isAbsolute` and `Path.endsInSlash` take a path apart.
- `Location` is the list of components from the root.
- `Path.identity` is the normal form of a path.
-/

namespace HexEditor

/-- The components that lead from the root to an entry of the disk. -/
abbrev Location := List Text

namespace Path

/-- The separator of components. -/
def slash : UInt8 := 47

/-- The component that stays where it is. -/
def here : Text := ascii "."

/-- The component that leads one level up. -/
def up : Text := ascii ".."

/-- The parts of a text between slashes, empty ones included. -/
def parts : Text → List Text
  | [] => [[]]
  | b :: rest =>
    if b = slash then [] :: parts rest
    else
      match parts rest with
      | [] => [[b]]
      | part :: more => (b :: part) :: more

/-- The components of a path. -/
def names (path : Text) : List Text :=
  (parts path).filter fun part => !part.isEmpty

/-- Does the path begin at the root? -/
def isAbsolute (path : Text) : Bool :=
  path.head? == some slash

/-- Does the path end in a slash? -/
def endsInSlash (path : Text) : Bool :=
  path.getLast? == some slash

/-! ## Normal forms -/

/-- Follow one component by name alone.  Nothing lies above the root. -/
def follow (location : Location) (name : Text) : Location :=
  if name = here then location
  else if name = up then location.dropLast
  else location ++ [name]

/-- The location that a path from the given directory spells out, and whether it
is spelled as a directory: with a slash, `.` or `..` at the end.  An empty path
spells nothing. -/
def identity (directory : Location) (path : Text) : Option (Location × Bool) :=
  if path.isEmpty then none
  else
    let names := names path
    let start := if isAbsolute path then [] else directory
    let asDirectory :=
      endsInSlash path || names.getLast? == some here || names.getLast? == some up
    some (names.foldl follow start, asDirectory)

end Path

end HexEditor
