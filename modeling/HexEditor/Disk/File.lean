import HexEditor.Disk.Stream
import HexEditor.Rope.Basic

/-!
# Loading and saving files

A file is loaded as a whole.  It is saved by writing a temporary file beside it,
chunk by chunk, and then renaming that one, so that a save which fails leaves the
old content.

Main definitions:

- `FileError` says why a file could not be loaded or saved.
- `Disk.load` and `Disk.save`.
- `Disk.loadLines` loads a file as lines of text.
-/

namespace HexEditor

/-- Why a file could not be loaded or saved. -/
inductive FileError where
  /-- The file could not be opened. -/
  | cannotOpen (path : Text) (cause : DiskError)
  /-- There is something other than a file at the path. -/
  | notRegular (path : Text)
  /-- The content could not be mapped into memory. -/
  | cannotMap (path : Text) (cause : DiskError)
  /-- The file could not be written or put in its place. -/
  | cannotWrite (path : Text) (cause : DiskError)
deriving DecidableEq

/-- The wording of a refusal. -/
def FileError.message : FileError → Text
  | cannotOpen path cause => ascii "can not open file: " ++ path ++ reason cause
  | notRegular path => ascii "not a regular file: " ++ path
  | cannotMap path cause => ascii "can not mmap file: " ++ path ++ reason cause
  | cannotWrite path cause => ascii "write file failed: " ++ path ++ reason cause
where
  /-- The cause in parentheses. -/
  reason (cause : DiskError) : Text := ascii " (" ++ cause.message ++ ascii ")"

/-! ## Lines -/

namespace Lines

/-- A line, given backwards, in reading order and without the carriage return at
its end. -/
def finish : Text → Text
  | 13 :: rest => rest.reverse
  | line => line.reverse

/-- The lines of a text, when the given bytes of the first line, latest first,
have been read already. -/
def ofTextAfter (begun : Text) : Text → List Text
  | [] =>
    let line := finish begun
    if line.isEmpty then [] else [line]
  | b :: rest =>
    if b = 10 then finish begun :: ofTextAfter [] rest else ofTextAfter (b :: begun) rest

/-- The lines of a text.  A line ends in a line feed, and one carriage return in
front of it belongs to the end as well; the last line may lack its end, but not
its content. -/
def ofText (text : Text) : List Text :=
  ofTextAfter [] text

end Lines

namespace Disk

/-- Is there anything at the path? -/
def hasEntry (disk : Disk) (path : Text) : Bool :=
  (disk.entryAt path).isOk

/-- The content of a file. -/
def load (disk : Disk) (path : Text) : Except FileError Bytes :=
  match disk.entryAt path with
  | .error cause => .error (.cannotOpen path cause)
  | .ok .directory => .error (.notRegular path)
  | .ok (.file bytes) => .ok bytes

/-- The lines of a file.  A directory can be opened but has no content to map. -/
def loadLines (disk : Disk) (path : Text) : Except FileError (List Text) :=
  match disk.entryAt path with
  | .error cause => .error (.cannotOpen path cause)
  | .ok .directory => .error (.cannotMap path .noSuchDevice)
  | .ok (.file bytes) => .ok (Lines.ofText bytes)

/-- The path of the temporary file that a save writes first. -/
def temporaryPath (path : Text) : Text := path ++ ascii ".tmp"

/-- Save a version at a path: write the temporary file, then rename it.  When the
system refuses a call, the temporary file is removed. -/
def save (disk : Disk) (path : Text) (buffer : Rope) : Disk × Except FileError Unit :=
  match disk.attempt fun disk => disk.openEmpty (temporaryPath path) with
  | (disk, .error cause) => (disk, .error (.cannotWrite (temporaryPath path) cause))
  | (_, .ok (opened, number)) =>
    let chunks := (buffer.chunks ⟨0, buffer.length⟩).toList
    let (stream, outcome) := Stream.transfer opened.answers chunks
    let written :=
      { opened.setContent number stream.content.toList with answers := stream.answers }
    match outcome with
    | .error cause =>
      (written.remove (temporaryPath path), .error (.cannotWrite (temporaryPath path) cause))
    | .ok () =>
      match written.attempt fun disk => disk.rename (temporaryPath path) path with
      | (disk, .error cause) =>
        (disk.remove (temporaryPath path), .error (.cannotWrite path cause))
      | (_, .ok renamed) => (renamed, .ok ())

end Disk

end HexEditor
