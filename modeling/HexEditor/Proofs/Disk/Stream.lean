import HexEditor.Disk.Stream
import Mathlib.Tactic.Common

/-!
# What a file holds after it was written

However chunks are gathered into batches, and however many calls a batch takes, the
bytes arrive in order: none is lost and none is written twice.

Main results:

- Theorem `Stream.flatten_batches`: the batches are the bytes of the chunks.
- Theorem `Stream.content_of_writeBehind`: a span that was written lies behind what was
  there before, also when it took several calls.
- Theorem `Stream.content_of_transfer`: a file that was written and confirmed holds the
  bytes of all chunks.
-/

namespace HexEditor

namespace Stream

/-! ## Batches -/

theorem flatten_flush (held : Array UInt8) : (flush held).flatten = held.toList := by
  rw [flush]
  split
  · rename_i hempty
    rw [Array.isEmpty_iff] at hempty
    rw [hempty]
    rfl
  · exact List.append_nil _

/-- The batches are what was gathered, followed by the chunks.  The induction takes the
chunks off one by one, with whatever has been gathered by then. -/
theorem flatten_batchesAfter (held : Array UInt8) (chunks : List Bytes) :
    (batchesAfter held chunks).flatten = held.toList ++ chunks.flatten := by
  induction chunks generalizing held with
  | nil => rw [batchesAfter, flatten_flush, List.flatten_nil, List.append_nil]
  | cons chunk chunks ih =>
      rw [batchesAfter, List.flatten_cons]
      split
      · split
        · rw [List.flatten_append, flatten_flush, List.flatten_cons, ih]
          rfl
        · rw [List.flatten_append, flatten_flush, ih]
      · rw [ih, Array.toList_appendList, List.append_assoc]

/-- Gathering chunks into batches keeps their bytes. -/
theorem flatten_batches (chunks : List Bytes) : (batches chunks).flatten = chunks.flatten :=
  flatten_batchesAfter #[] chunks

/-! ## Writing -/

/-- A span that was written lies behind the content, however many calls it took. -/
theorem content_of_writeBehind {content : Array UInt8} {answers : List Answer} {span : Bytes}
    (h : (writeBehind content answers span).2 = .ok ()) :
    (writeBehind content answers span).1.content.toList = content.toList ++ span := by
  fun_induction writeBehind content answers span with
  | case1 content answers => exact (List.append_nil _).symm
  | case2 content span => exact Array.toList_appendList
  | case3 content span further answers _ ih =>
      rw [ih h, Array.toList_appendList, List.append_assoc, List.take_append_drop]
  | case4 content span answers _ ih => exact ih h
  | case5 content span cause answers => cases h

/-- Spans that were all written lie behind the content in order. -/
theorem content_of_writeEach {s : Stream} {spans : List Bytes}
    (h : (s.writeEach spans).2 = .ok ()) :
    (s.writeEach spans).1.content.toList = s.content.toList ++ spans.flatten := by
  induction spans generalizing s with
  | nil => exact (List.append_nil _).symm
  | cons span spans ih =>
      rw [writeEach] at h ⊢
      split at h
      · rename_i later hwritten
        have hspan : later.content.toList = s.content.toList ++ span := by
          have hcontent := content_of_writeBehind (congrArg Prod.snd hwritten)
          rw [← write, hwritten] at hcontent
          exact hcontent
        rw [ih h, hspan, List.flatten_cons, List.append_assoc]
      · cases h

theorem content_confirm (s : Stream) : s.confirm.1.content = s.content := by
  rw [confirm]
  split
  all_goals rfl

/-- A file that was written and confirmed holds the bytes of its chunks. -/
theorem content_of_transfer {answers : List Answer} {chunks : List Bytes}
    (h : (transfer answers chunks).2 = .ok ()) :
    (transfer answers chunks).1.content.toList = chunks.flatten := by
  rw [transfer] at h ⊢
  split at h
  · cases h
  · rename_i written hwritten
    have hcontent : written.content.toList = chunks.flatten := by
      have heach := content_of_writeEach (congrArg Prod.snd hwritten)
      rw [hwritten, flatten_batches] at heach
      exact heach
    split at h
    · cases h
    · rename_i stored hstored
      have hkept : stored.content = written.content := by
        have hconfirm := content_confirm written
        rw [hstored] at hconfirm
        exact hconfirm
      rw [content_confirm, hkept, hcontent]

end Stream

end HexEditor
