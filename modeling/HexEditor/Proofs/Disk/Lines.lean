import HexEditor.Disk.File
import Mathlib.Tactic.Common

/-!
# Reading lines back

A file of lines can be written in many ways: every line ends in a line feed, with or without a
carriage return in front of it, and the last one may lack its end unless it is empty.  Reading the
file finds the same lines in any case.

Reading takes bytes off the front of the text.  A scan goes through its places instead, one step
past the last byte, and where a line ends it looks back at the place before.  The scan of this
module reads with checks: outside the text there is no byte and no piece.

Main results:

- Definition `Lines.Written`: a text that lines can be written as.
- Theorem `Lines.Written.ofText_eq`: reading finds the lines.
- Definition `Lines.scan` and theorem `Lines.scan_eq`: the scan leads to what reading leads to, so
  that no check fails.
- Theorem `Disk.loadLines_reads_back`: lines that were written to a file are read back.
-/

namespace HexEditor

namespace Lines

/-! ## Written lines -/

/-- The two ends that a line can have. -/
inductive Ending where
  /-- A line feed. -/
  | feed
  /-- A carriage return and a line feed. -/
  | returnFeed

/-- The bytes of an end. -/
def Ending.bytes : Ending → Text
  | feed => ascii "\n"
  | returnFeed => ascii "\r\n"

/-- A line that no end can be mistaken in: it has no line feed, and does not end in a carriage
return. -/
structure IsLine (line : Text) : Prop where
  /-- No byte is a line feed. -/
  noFeed : 10 ∉ line
  /-- The last byte is no carriage return. -/
  noReturn : line.getLast? ≠ some 13

instance : DecidablePred IsLine := fun line =>
  decidable_of_iff (10 ∉ line ∧ line.getLast? ≠ some 13)
    ⟨fun h => ⟨h.1, h.2⟩, fun h => ⟨h.noFeed, h.noReturn⟩⟩

/-- The text consists of the lines, each with an end of its own.  The last line may lack it, if it
is not empty. -/
inductive Written : List Text → Text → Prop where
  | none : Written [] []
  | unended {line : Text} : line ≠ [] → Written [line] line
  | ended {line : Text} {lines : List Text} {text : Text} (ending : Ending) :
    Written lines text → Written (line :: lines) (line ++ ending.bytes ++ text)

section Read

variable {begun line text : Text} {lines : List Text}

theorem finish_return (begun : Text) : finish (13 :: begun) = begun.reverse := rfl

theorem finish_cons {b : UInt8} (hb : b ≠ 13) (begun : Text) :
    finish (b :: begun) = (b :: begun).reverse := by
  rw [finish]
  rintro rest heq
  exact hb (List.cons.inj heq).1

/-- A line without a carriage return at its end is left. -/
theorem finish_reverse (h : line.getLast? ≠ some 13) : finish line.reverse = line := by
  rcases hreversed : line.reverse with _ | ⟨b, begun⟩
  · rw [List.reverse_eq_nil_iff.1 hreversed]
    rfl
  · rw [List.getLast?_eq_head?_reverse, hreversed, List.head?_cons] at h
    rw [finish_cons (fun hb => h (congrArg some hb)), ← hreversed, List.reverse_reverse]

/-- Bytes without a line feed belong to the line that has begun. -/
theorem ofTextAfter_append (hfeed : 10 ∉ line) (begun text : Text) :
    ofTextAfter begun (line ++ text) = ofTextAfter (line.reverse ++ begun) text := by
  induction line generalizing begun with
  | nil => rfl
  | cons b line ih =>
      rw [List.mem_cons, not_or] at hfeed
      rcases hfeed with ⟨hb, hline⟩
      rw [List.cons_append, ofTextAfter, if_neg (Ne.symm hb), ih hline, List.reverse_cons,
        List.append_assoc]
      rfl

/-- A line feed ends the first line. -/
theorem ofText_append_feed (hfeed : 10 ∉ line) (text : Text) :
    ofText (line ++ 10 :: text) = finish line.reverse :: ofText text := by
  rw [ofText, ofTextAfter_append hfeed, List.append_nil]
  rfl

/-- Either end ends the first line. -/
theorem ofText_append_ending (h : IsLine line) (ending : Ending) (text : Text) :
    ofText (line ++ ending.bytes ++ text) = line :: ofText text := by
  cases ending with
  | feed =>
      have hsplit : line ++ Ending.feed.bytes ++ text = line ++ 10 :: text :=
        List.append_assoc _ _ _
      rw [hsplit, ofText_append_feed h.noFeed, finish_reverse h.noReturn]
  | returnFeed =>
      have hsplit : line ++ Ending.returnFeed.bytes ++ text = (line ++ [13]) ++ 10 :: text := by
        rw [List.append_assoc, List.append_assoc]
        rfl
      have hfeed : 10 ∉ line ++ [13] := by
        rw [List.mem_append, not_or]
        exact ⟨h.noFeed, by decide⟩
      rw [hsplit, ofText_append_feed hfeed, List.reverse_append]
      change finish (13 :: line.reverse) :: _ = _
      rw [finish_return, List.reverse_reverse]

/-- A last line without an end is a line unless it is empty. -/
theorem ofText_unended (h : IsLine line) (hline : line ≠ []) : ofText line = [line] := by
  have hread := ofTextAfter_append h.noFeed [] []
  rw [List.append_nil, List.append_nil] at hread
  rw [ofText, hread, ofTextAfter, finish_reverse h.noReturn]
  exact if_neg (by rwa [List.isEmpty_iff])

/-- Lines are read back from every text that they can be written as. -/
theorem Written.ofText_eq (h : Written lines text) (hlines : ∀ line ∈ lines, IsLine line) :
    ofText text = lines := by
  induction h with
  | none => rfl
  | unended hline => exact ofText_unended (hlines _ List.mem_cons_self) hline
  | ended ending _ ih =>
      rw [ofText_append_ending (hlines _ List.mem_cons_self),
        ih fun line hline => hlines line (List.mem_cons_of_mem _ hline)]

end Read

/-! ## A scan by place -/

/-- The bytes from a place up to another one, if they lie in the text in this order. -/
def piece? (text : Text) (start stop : Nat) : Option Text :=
  if start ≤ stop ∧ stop ≤ text.length then some ((text.drop start).take (stop - start)) else none

/-- Where the content ends of a line that begins at `start` and whose end begins at `place` at the
latest: a carriage return in front of that place belongs to the end. -/
def contentEnd? (text : Text) (start place : Nat) : Option Nat :=
  if start < place then (text[place - 1]?).map fun b => if b = 13 then place - 1 else place
  else some place

/-- Scan a text from a place on, when the line at this place begins at `start`.  The scan ends one
step past the last byte. -/
def scanFrom (text : Text) (start place : Nat) : Option (List Text) :=
  if _h : place < text.length then do
    if (← text[place]?) ≠ 10 then scanFrom text start (place + 1)
    else
      let line ← piece? text start (← contentEnd? text start place)
      let lines ← scanFrom text (place + 1) (place + 1)
      some (line :: lines)
  else do
    let stop ← contentEnd? text start place
    if start < stop then
      let line ← piece? text start stop
      some [line]
    else some []
termination_by text.length - place

/-- Scan a text from its beginning. -/
def scan (text : Text) : Option (List Text) :=
  scanFrom text 0 0

section Scan

variable {text begun rest : Text} {start : Nat}

theorem finish_isPrefix (begun : Text) : finish begun <+: begun.reverse := by
  rcases begun with _ | ⟨b, begun⟩
  · exact List.prefix_rfl
  · by_cases hb : b = 13
    · subst hb
      exact ⟨[13], List.reverse_cons.symm⟩
    · exact ⟨[], by rw [finish_cons hb, List.append_nil]⟩

/-- The byte at the place up to which a line has been read. -/
theorem getElem?_of_drop {b : UInt8} (h : text.drop start = begun.reverse ++ b :: rest) :
    text[start + begun.length]? = some b := by
  rw [← List.getElem?_drop, h, List.getElem?_append_right (Nat.le_of_eq List.length_reverse),
    List.length_reverse, Nat.sub_self]
  rfl

/-- The content of a line ends where its bytes end without the carriage return. -/
theorem contentEnd?_eq (h : text.drop start = begun.reverse ++ rest) :
    contentEnd? text start (start + begun.length) = some (start + (finish begun).length) := by
  rcases begun with _ | ⟨b, begun⟩
  · exact if_neg (Nat.lt_irrefl _)
  · rw [List.reverse_cons, List.append_assoc] at h
    rw [contentEnd?, List.length_cons, if_pos (by omega), ← Nat.add_assoc, Nat.add_sub_cancel,
      getElem?_of_drop h]
    by_cases hb : b = 13
    · subst hb
      rw [finish_return, List.length_reverse]
      rfl
    · rw [finish_cons hb, List.length_reverse, List.length_cons, Option.map_some, if_neg hb]
      rfl

/-- The content of a line lies in the text. -/
theorem piece?_eq (hstart : start ≤ text.length) (h : text.drop start = begun.reverse ++ rest) :
    piece? text start (start + (finish begun).length) = some (finish begun) := by
  rcases finish_isPrefix begun with ⟨back, hback⟩
  rw [← hback, List.append_assoc] at h
  have hlength := congrArg List.length h
  rw [List.length_drop, List.length_append] at hlength
  rw [piece?, if_pos (by omega), Nat.add_sub_cancel_left, h, List.take_left]

/-- The scan finds in the rest of a text what is read off the front of this rest.  The induction
carries that the bytes since the beginning of the line are those that have been read already. -/
theorem scanFrom_eq (hstart : start ≤ text.length) (h : text.drop start = begun.reverse ++ rest) :
    scanFrom text start (start + begun.length) = some (ofTextAfter begun rest) := by
  have hlength := congrArg List.length h
  rw [List.length_drop, List.length_append, List.length_reverse] at hlength
  induction rest generalizing begun start with
  | nil =>
      rw [List.length_nil] at hlength
      rw [scanFrom, dif_neg (by omega), contentEnd?_eq h, ofTextAfter]
      rcases hline : finish begun with _ | ⟨b, line⟩
      · exact if_neg (Nat.lt_irrefl _)
      · have hpiece := piece?_eq hstart h
        rw [hline] at hpiece
        simp only [Option.bind_eq_bind, Option.bind_some, hpiece]
        exact if_pos (Nat.lt_add_of_pos_right (Nat.succ_pos _))
  | cons b rest ih =>
      rw [List.length_cons] at hlength
      rw [scanFrom, dif_pos (by omega), getElem?_of_drop h, ofTextAfter]
      simp only [Option.bind_eq_bind, Option.bind_some, contentEnd?_eq h, piece?_eq hstart h]
      by_cases hb : b = 10
      · have hnext : text.drop (start + begun.length + 1) = rest := by
          rw [← List.drop_drop, ← List.drop_drop, h, ← List.length_reverse, List.drop_left]
          rfl
        have hrest := @ih [] (start + begun.length + 1) (by omega) hnext
          (by rw [List.length_nil]; omega)
        rw [List.length_nil, Nat.add_zero] at hrest
        rw [if_neg (not_not_intro hb), if_pos hb, hrest]
        rfl
      · have hnext : text.drop start = (b :: begun).reverse ++ rest := by
          rw [h, List.reverse_cons, List.append_assoc]
          rfl
        rw [if_pos hb, if_neg hb]
        exact ih hstart hnext (by rw [List.length_cons]; omega)

/-- The scan with checked reads finds what reading finds, and never leaves the text. -/
theorem scan_eq (text : Text) : scan text = some (ofText text) :=
  scanFrom_eq (Nat.zero_le _) (show text.drop 0 = ([] : Text).reverse ++ text from rfl)

end Scan

end Lines

namespace Disk

/-- Lines that were written to a file, in whichever way, are read back from it.  A scan of the file
by place finds them as well and stays in the file. -/
theorem loadLines_reads_back {lines : List Text} {text path : Text} {disk : Disk}
    (hlines : ∀ line ∈ lines, Lines.IsLine line) (hwritten : Lines.Written lines text)
    (hfile : disk.entryAt path = .ok (.file text)) :
    disk.loadLines path = .ok lines ∧ Lines.scan text = some lines := by
  have hread := hwritten.ofText_eq hlines
  constructor
  · rw [loadLines, hfile]
    exact congrArg Except.ok hread
  · rw [Lines.scan_eq, hread]

/-- A blank line, a line that begins with a carriage return and a last line without an end. -/
theorem loadLines_reads_back_unended :
    (blank.put (ascii "rc") (ascii "\r\n\rset\nq")).loadLines (ascii "rc") =
        .ok [[], ascii "\rset", ascii "q"] ∧
      Lines.scan (ascii "\r\n\rset\nq") = some [[], ascii "\rset", ascii "q"] := by
  have hwritten : Lines.Written [[], ascii "\rset", ascii "q"] (ascii "\r\n\rset\nq") :=
    .ended .returnFeed (.ended .feed (.unended (by decide)))
  exact loadLines_reads_back (by decide) hwritten rfl

end Disk

end HexEditor
