import HexEditor.Disk.Basic

/-!
# Writing a file

The bytes of a version come in chunks.  They are gathered into batches, and each batch
is written by as many calls as it takes: a call may take only some of the bytes, and
one that has been interrupted is repeated.  The file is complete when the system has
confirmed that its content is stored and that it is closed.

Main definitions:

- `Stream` is a file that is open for writing.
- `Stream.batches` are the spans of bytes that are written at a time.
- `Stream.write` writes one span, and `Stream.transfer` all of a file.
-/

namespace HexEditor

/-- A file that is open for writing. -/
structure Stream where
  /-- What has been written so far. -/
  content : Array UInt8
  /-- How the system will answer the next calls. -/
  answers : List Answer

namespace Stream

/-! ## Batches -/

/-- The most bytes that are gathered. -/
def batchSize : Nat := 0x10000

/-- The bytes that have been gathered as a span, if there are any. -/
def flush (held : Array UInt8) : List Bytes :=
  if held.isEmpty then [] else [held.toList]

/-- The spans in which chunks are written, when some bytes have been gathered already.
A chunk that fills a batch by itself is not gathered. -/
def batchesAfter (held : Array UInt8) : List Bytes → List Bytes
  | [] => flush held
  | chunk :: chunks =>
    if batchSize - held.size < chunk.length then
      if batchSize ≤ chunk.length then flush held ++ chunk :: batchesAfter #[] chunks
      else flush held ++ batchesAfter chunk.toArray chunks
    else batchesAfter (held ++ chunk) chunks

/-- The spans in which chunks are written. -/
def batches (chunks : List Bytes) : List Bytes :=
  batchesAfter #[] chunks

/-! ## Calls -/

/-- Write a span of bytes behind the content, in as many calls as it takes. -/
def writeBehind (content : Array UInt8) : List Answer → Bytes → Stream × Except DiskError Unit
  | answers, [] => (⟨content, answers⟩, .ok ())
  | [], span => (⟨content ++ span, []⟩, .ok ())
  | .done further :: answers, span =>
    writeBehind (content ++ span.take (further + 1)) answers (span.drop (further + 1))
  | .refused cause :: answers, span =>
    if cause = .interrupted then writeBehind content answers span
    else (⟨content, answers⟩, .error cause)

/-- Write a span of bytes. -/
def write (s : Stream) (span : Bytes) : Stream × Except DiskError Unit :=
  writeBehind s.content s.answers span

/-- Write spans one after the other, up to the first that is refused. -/
def writeEach (s : Stream) : List Bytes → Stream × Except DiskError Unit
  | [] => (s, .ok ())
  | span :: spans =>
    match s.write span with
    | (s, .ok ()) => s.writeEach spans
    | (s, .error cause) => (s, .error cause)

/-- Ask the system to confirm something about the file. -/
def confirm (s : Stream) : Stream × Except DiskError Unit :=
  match s.answers with
  | .refused cause :: answers => ({ s with answers }, .error cause)
  | answers => ({ s with answers := answers.drop 1 }, .ok ())

/-- Write the chunks of a whole file.  Then its content has to be stored, and the file
has to be closed. -/
def transfer (answers : List Answer) (chunks : List Bytes) : Stream × Except DiskError Unit :=
  match writeEach ⟨#[], answers⟩ (batches chunks) with
  | (s, .error cause) => (s, .error cause)
  | (s, .ok ()) =>
    match s.confirm with
    | (s, .error cause) => (s, .error cause)
    | (s, .ok ()) => s.confirm

end Stream

end HexEditor
