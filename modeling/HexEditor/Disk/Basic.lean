import HexEditor.Disk.Path

/-!
# The disk

The files that the editor opens and saves lie in a tree of directories.  What has a name in a
directory is a file, a directory or a symbolic link.  A file may have several names, and a
link stands for the path that it holds.  Devices, pipes and sockets are left out.

The operations follow the rules of the system calls of the same kind: every component of a path
but the last must lead to a directory, so many links are followed and no more, names and paths
have a greatest length, a path is cut at its first zero byte, and each refusal has a cause.
Opening a file follows a link at the end of the path; renaming and removing take the link itself.

The tree does not decide everything: the system may refuse a call for reasons of its
own, and a call that writes may take fewer bytes than it was given.  How it will answer
is therefore a part of the disk.

Main definitions:

- `Disk` maps locations to nodes and the numbers of files to their contents, and `DiskError`
  lists the causes of refusal.
- `Answer` is what the system makes of a call, and `Disk.attempt` carries a call out
  unless it is refused.
- `Disk.resolve` follows the components of a path.
- `Disk.entryAt` looks a path up, `Disk.openEmpty` opens a file for writing from its
  beginning, and `Disk.rename` puts a file in the place of another.
- `Disk.put`, `Disk.makeDirectories` and `Disk.removeAll` prepare a disk, and
  `Disk.listing` lists it.
-/

namespace HexEditor

/-- Why the disk refused an operation. -/
inductive DiskError where
  | noSuchEntry
  | isDirectory
  | notDirectory
  | nameTooLong
  | busy
  | noSuchDevice
  | tooManyLinks
  /-- The call was broken off before it had done anything. -/
  | interrupted
  /-- Any other cause, with its wording. -/
  | other (wording : Text)
deriving DecidableEq

/-- The wording of a refusal. -/
def DiskError.message : DiskError → Text
  | noSuchEntry => ascii "No such file or directory"
  | isDirectory => ascii "Is a directory"
  | notDirectory => ascii "Not a directory"
  | nameTooLong => ascii "File name too long"
  | busy => ascii "Device or resource busy"
  | noSuchDevice => ascii "No such device"
  | tooManyLinks => ascii "Too many levels of symbolic links"
  | interrupted => ascii "Interrupted system call"
  | other wording => wording

/-- How the system answers a call that changes files. -/
inductive Answer where
  /-- The call is carried out.  If it writes, it takes one byte and at most that many
  further ones. -/
  | done (further : Nat)
  /-- The call is refused, and nothing has happened. -/
  | refused (cause : DiskError)
deriving DecidableEq

/-- What has a name in a directory. -/
inductive Disk.Node where
  /-- A file, by its number.  Nodes with one number are names of one file. -/
  | file (number : Nat)
  /-- A directory. -/
  | directory
  /-- A symbolic link, with the path that it stands for. -/
  | link (target : Text)
deriving DecidableEq

/-- What a path can lead to. -/
inductive Entry where
  /-- A file with its content. -/
  | file (bytes : Bytes)
  /-- A directory. -/
  | directory
deriving DecidableEq

/-- A tree of directories, listed by location, the contents of the files, the directory
that relative paths begin at, and the behaviour of the system. -/
structure Disk where
  /-- The nodes, each location once. -/
  nodes : List (Location × Disk.Node)
  /-- The contents of the files, each number once. -/
  contents : List (Nat × Bytes)
  /-- The directory that relative paths begin at. -/
  directory : Location
  /-- How the next calls that change files will be answered.  The calls behind the last
  of these answers are carried out in full. -/
  answers : List Answer
deriving DecidableEq

namespace Disk

def Node.isFile : Node → Bool
  | file _ => true
  | _ => false

/-- The least number above that of a file. -/
def Node.bound : Node → Nat
  | file number => number + 1
  | _ => 0

/-- A disk with nothing but an empty working directory, that refuses nothing. -/
def blank : Disk :=
  let work := [ascii "work"]
  ⟨[(work, .directory)], [], work, []⟩

/-- The longest name in a directory. -/
def nameLimit : Nat := 255

/-- Paths have to be shorter than this. -/
def pathLimit : Nat := 4096

/-- The most links that are followed along one path. -/
def linkLimit : Nat := 40

/-! ## Nodes and contents -/

/-- What lies at a location; the root is a directory. -/
def node? (disk : Disk) (location : Location) : Option Node :=
  if location.isEmpty then some .directory
  else (disk.nodes.find? fun e => e.1 == location).map (·.2)

/-- Put a node at a location, in place of what was there. -/
def setNode (disk : Disk) (location : Location) (node : Node) : Disk :=
  { disk with nodes := (location, node) :: disk.nodes.filter fun e => e.1 != location }

/-- Remove what lies at a location. -/
def dropNode (disk : Disk) (location : Location) : Disk :=
  { disk with nodes := disk.nodes.filter fun e => e.1 != location }

/-- What the file with the number holds. -/
def content (disk : Disk) (number : Nat) : Bytes :=
  ((disk.contents.find? fun e => e.1 == number).map (·.2)).getD []

/-- Let the file with the number hold these bytes instead. -/
def setContent (disk : Disk) (number : Nat) (bytes : Bytes) : Disk :=
  { disk with contents := (number, bytes) :: disk.contents.filter fun e => e.1 != number }

/-- A number that no file on the disk has. -/
def freshNumber (disk : Disk) : Nat :=
  (disk.nodes.map fun e => e.2.bound).foldr max 0

/-- Make a file at a location, in place of what was there. -/
def create (disk : Disk) (location : Location) (bytes : Bytes) : Disk :=
  (disk.setNode location (.file disk.freshNumber)).setContent disk.freshNumber bytes

/-- Put a new entry at a location, in place of what was there. -/
def setEntry (disk : Disk) (location : Location) : Entry → Disk
  | .file bytes => disk.create location bytes
  | .directory => disk.setNode location .directory

/-! ## Following paths -/

/-- The part of a path that the system sees. -/
def visible (path : Text) : Except DiskError Text :=
  let path := path.takeWhile (· ≠ 0)
  if path.isEmpty then .error .noSuchEntry
  else if pathLimit ≤ path.length then .error .nameTooLong
  else .ok path

/-- The location at which a path begins that is read in a directory. -/
def beginning (directory : Location) (path : Text) : Location :=
  if Path.isAbsolute path then [] else directory

/-- The location at which a path begins. -/
def origin (disk : Disk) (path : Text) : Location :=
  beginning disk.directory path

/-- The location must be a directory. -/
def expectDirectory (disk : Disk) (location : Location) : Except DiskError Unit :=
  match disk.node? location with
  | some .directory => .ok ()
  | none => .error .noSuchEntry
  | some _ => .error .notDirectory

/-- Follow one component out of a directory, but no link; there may be nothing at the
location that it leads to. -/
def step (disk : Disk) (location : Location) (name : Text) : Except DiskError Location := do
  disk.expectDirectory location
  if name = Path.here then return location
  else if name = Path.up then return location.dropLast
  else if nameLimit < name.length then throw .nameTooLong
  else return location ++ [name]

/-- The end of a way that was followed: a location, at which there may be nothing, and
whether a slash at the end asks for a directory there. -/
structure Spot where
  location : Location
  asDirectory : Bool

/-- Follow components up to the first link.  From there the given way is taken, with the
components of the link in front of those that are left.  A slash at the end of a link
counts if the link is the last component. -/
def resolveWith (disk : Disk) (onward : Bool → Location → List Text → Except DiskError Spot)
    (asDirectory : Bool) (location : Location) : List Text → Except DiskError Spot
  | [] => .ok ⟨location, asDirectory⟩
  | name :: rest => do
    let next ← disk.step location name
    match disk.node? next with
    | some (.link target) =>
      onward (asDirectory || rest.isEmpty && Path.endsInSlash target)
        (beginning location target) (Path.names target ++ rest)
    | _ => disk.resolveWith onward asDirectory next rest

/-- Follow components and the links among them, as many as are allowed. -/
def resolve (disk : Disk) :
    (links : Nat) → Bool → Location → List Text → Except DiskError Spot
  | 0 => disk.resolveWith fun _ _ _ => .error .tooManyLinks
  | links + 1 => disk.resolveWith (disk.resolve links)

/-- Where a path leads when all links are followed. -/
def reach (disk : Disk) (path : Text) : Except DiskError Spot := do
  let path ← visible path
  disk.resolve linkLimit (Path.endsInSlash path) (disk.origin path) (Path.names path)

/-- The entry that a path leads to. -/
def entryAt (disk : Disk) (path : Text) : Except DiskError Entry := do
  let spot ← disk.reach path
  match disk.node? spot.location with
  | some (.file number) =>
    if spot.asDirectory then throw .notDirectory else return .file (disk.content number)
  | some .directory => return .directory
  | _ => throw .noSuchEntry

/-- The directory in which a path names its last component, and that component.
There is none if the path ends in `.`, in `..` or at the root. -/
def place (disk : Disk) (path : Text) : Except DiskError (Location × Option Text) := do
  let names := Path.names path
  let spot ← disk.resolve linkLimit false (disk.origin path) names.dropLast
  disk.expectDirectory spot.location
  match names.getLast? with
  | none => return (spot.location, none)
  | some name =>
    return (spot.location, if name = Path.here ∨ name = Path.up then none else some name)

/-! ## Changing files -/

/-- Carry a call out, unless the system refuses it for a reason of its own.  Either way
the call has had its answer. -/
def attempt {α : Type} (disk : Disk) (call : Disk → Except DiskError α) :
    Disk × Except DiskError α :=
  match disk.answers with
  | [] => (disk, call disk)
  | .done _ :: answers => ({ disk with answers }, call { disk with answers })
  | .refused cause :: answers => ({ disk with answers }, .error cause)

/-- Open a file for writing from its beginning.  A file that is missing is created, and
one that is there loses its content.  The number stands for the open file. -/
def openEmpty (disk : Disk) (path : Text) : Except DiskError (Disk × Nat) := do
  let spot ← disk.reach path
  if spot.asDirectory then throw .isDirectory
  match disk.node? spot.location with
  | some .directory => throw .isDirectory
  | some (.file number) => return (disk.setContent number [], number)
  | _ => return (disk.create spot.location [], disk.freshNumber)

/-- Move a file or a link to another path, in place of what is there.  Nothing happens if
both paths name one file. -/
def rename (disk : Disk) (source target : Text) : Except DiskError Disk := do
  let source ← visible source
  let target ← visible target
  let (sourceParent, sourceName) ← disk.place source
  let (targetParent, targetName) ← disk.place target
  match sourceName, targetName with
  | some sourceName, some targetName =>
    let sourceLocation ← disk.step sourceParent sourceName
    match disk.node? sourceLocation with
    | none => throw .noSuchEntry
    | some .directory => throw .isDirectory
    | some node =>
      let targetLocation ← disk.step targetParent targetName
      if Path.endsInSlash source || Path.endsInSlash target then throw .notDirectory
      if targetLocation = sourceLocation ∨
          node.isFile = true ∧ disk.node? targetLocation = some node then
        return disk
      match disk.node? targetLocation with
      | some .directory => throw .isDirectory
      | _ => return (disk.dropNode sourceLocation).setNode targetLocation node
  | _, _ => throw .busy

/-- Remove a file or a link; a path that names none changes nothing. -/
def remove (disk : Disk) (path : Text) : Disk :=
  let removed : Except DiskError Disk := do
    let path ← visible path
    let (parent, name) ← disk.place path
    match name with
    | none => throw .busy
    | some name =>
      let location ← disk.step parent name
      return disk.dropNode location
  removed.toOption.getD disk

/-! ## Preparing and listing a disk -/

/-- Make every directory on the way along the components that is missing. -/
def makeDirectoriesFrom (disk : Disk) (location : Location) : List Text → Disk
  | [] => disk
  | name :: rest =>
    let location := Path.follow location name
    let disk := if (disk.node? location).isNone then disk.setEntry location .directory else disk
    disk.makeDirectoriesFrom location rest

/-- Make a directory and those above it. -/
def makeDirectories (disk : Disk) (path : Text) : Disk :=
  disk.makeDirectoriesFrom (disk.origin path) (Path.names path)

/-- Put a file at a path and make the directories above it. -/
def put (disk : Disk) (path : Text) (bytes : Bytes) : Disk :=
  let names := Path.names path
  let disk := disk.makeDirectoriesFrom (disk.origin path) names.dropLast
  disk.setEntry (names.foldl Path.follow (disk.origin path)) (.file bytes)

/-- Remove what a path spells out, with everything below it. -/
def removeAll (disk : Disk) (path : Text) : Disk :=
  let location := (Path.names path).foldl Path.follow (disk.origin path)
  { disk with nodes := disk.nodes.filter fun e => !location.isPrefixOf e.1 }

/-- The files and directories below the working directory, named from there and ordered
by name.  Links are passed over. -/
def listing (disk : Disk) : List (Text × Entry) :=
  let below := disk.nodes.filterMap fun (location, node) =>
    if disk.directory.isPrefixOf location ∧ disk.directory ≠ location then
      let name := ((location.drop disk.directory.length).intersperse [Path.slash]).flatten
      match node with
      | .file number => some (name, .file (disk.content number))
      | .directory => some (name, .directory)
      | .link _ => none
    else none
  below.mergeSort fun a b => a.1 ≤ b.1

end Disk

end HexEditor
