import HexEditor.Proofs.Pattern.Grammar

/-!
# Reading patterns by place

Reading takes bytes off the front of a text.  A scan goes through the places of the text
instead, and where an item may begin it looks one, two or three places ahead.  So each of its
reads has to be preceded by a comparison with the length.  The scans of this module read with
checks, and a read behind the end would stop them with an error of its own.

Main results:

- Definition `Pattern.scan`: the scan with checked reads.
- Theorem `Pattern.scan_eq`: the scan leads to what reading leads to, so that no check fails.
- Theorem `Pattern.parse_decides_grammar`: for every text, reading finds the pattern that the
  text denotes, or refuses the text if it denotes none, and no byte behind the end is read.
-/

namespace HexEditor

namespace Pattern

/-! ## A scan by place -/

/-- Why a scan with checked reads found no pattern. -/
inductive ScanError where
  /-- The text is refused. -/
  | refused (error : PatternError)
  /-- A byte was read behind the end of the text. -/
  | pastEnd (place : Nat)
deriving DecidableEq

/-- The byte at a place of a text; there is none behind the end. -/
def readAt (text : Text) (place : Nat) : Except ScanError UInt8 :=
  match text[place]? with
  | some b => .ok b
  | none => .error (.pastEnd place)

/-- Scan a text in hex from a place on.  A byte is read only after its place has been compared
with the length. -/
def scanHex (text : Text) (place : Nat) : Except ScanError Pattern :=
  if _h : text.length ≤ place then .ok []
  else do
    let c ← readAt text place
    if Text.isBlank c then scanHex text (place + 1)
    else if text.length ≤ place + 1 then
      .error (.refused (if c = 63 then .loneWildcard place else .oddDigits))
    else do
      let d ← readAt text (place + 1)
      let piece ← (parsePair place c d).mapError .refused
      (scanHex text (place + 2)).map (piece :: ·)
termination_by text.length - place

/-- Scan a text in ascii from a place on.  A byte is read only after its place has been compared
with the length. -/
def scanAscii (text : Text) (place : Nat) : Except ScanError Pattern :=
  if _h : text.length ≤ place then .ok []
  else do
    let c ← readAt text place
    if c ≠ 92 then (scanAscii text (place + 1)).map (.literal c :: ·)
    else if text.length ≤ place + 1 then .error (.refused .openEscape)
    else do
      let e ← readAt text (place + 1)
      if e = 63 then (scanAscii text (place + 2)).map (.wildcard :: ·)
      else if e = 92 then (scanAscii text (place + 2)).map (.literal 92 :: ·)
      else if e = 120 then
        if text.length ≤ place + 3 then .error (.refused .shortByteEscape)
        else do
          let high ← readAt text (place + 2)
          let low ← readAt text (place + 3)
          match Text.hexDigit? high, Text.hexDigit? low with
          | some high, some low =>
            (scanAscii text (place + 4)).map (.literal (byteOf high low) :: ·)
          | _, _ => .error (.refused .badByteEscape)
      else .error (.refused (.unknownEscape e))
termination_by text.length - place

/-- Scan a text in the encoding. -/
def scan : Encoding → Text → Except ScanError Pattern
  | .hex, text => scanHex text 0
  | .ascii, text => scanAscii text 0

section Scan

variable {text rest : Text} {place : Nat} {b : UInt8}

/-- A byte in front of the end is read. -/
theorem readAt_bind (h : text.drop place = b :: rest)
    (next : UInt8 → Except ScanError Pattern) : readAt text place >>= next = next b := by
  have hentry : text[place]? = some b := by
    rw [← List.head?_drop, h, List.head?_cons]
  rw [readAt, hentry]
  rfl

theorem drop_succ_of_drop (h : text.drop place = b :: rest) :
    text.drop (place + 1) = rest := by
  rw [← List.drop_drop, h, List.drop_one, List.tail_cons]

theorem length_of_drop (h : text.drop place = b :: rest) :
    text.length = place + 1 + rest.length := by
  have hlength := congrArg List.length h
  rw [List.length_drop, List.length_cons] at hlength
  omega

/-- The scan in hex finds in the rest of a text what is read off the front of this rest. -/
theorem scanHex_of_drop {suffix : Text} (h : text.drop place = suffix) :
    scanHex text place = (parseHex place suffix).mapError .refused := by
  fun_induction parseHex place suffix with
  | case1 place =>
      rw [scanHex, dif_pos (List.drop_eq_nil_iff.1 h)]
      rfl
  | case2 place c hblank =>
      have hlength : text.length = place + 1 := length_of_drop h
      rw [scanHex, dif_neg (by omega), readAt_bind h, if_pos hblank, scanHex,
        dif_pos (Nat.le_of_eq hlength)]
      rfl
  | case3 place c hblank =>
      have hlength : text.length = place + 1 := length_of_drop h
      rw [scanHex, dif_neg (by omega), readAt_bind h, if_neg hblank, if_pos (Nat.le_of_eq hlength)]
      rfl
  | case4 place c d rest hblank ih =>
      have hlength := length_of_drop h
      rw [scanHex, dif_neg (by omega), readAt_bind h, if_pos hblank]
      exact ih (drop_succ_of_drop h)
  | case5 place c d rest hblank ih =>
      have hnext := drop_succ_of_drop h
      have hlength := length_of_drop hnext
      rw [scanHex, dif_neg (by omega), readAt_bind h, if_neg hblank, if_neg (by omega),
        readAt_bind hnext, ih (drop_succ_of_drop hnext)]
      cases parsePair place c d <;> cases parseHex (place + 2) rest <;> rfl

/-- The scan in ascii finds in the rest of a text what is read off the front of this rest. -/
theorem scanAscii_of_drop {suffix : Text} (h : text.drop place = suffix) :
    scanAscii text place = (parseAscii suffix).mapError .refused := by
  fun_induction parseAscii suffix generalizing place with
  | case1 =>
      rw [scanAscii, dif_pos (List.drop_eq_nil_iff.1 h)]
      rfl
  | case2 =>
      have hlength : text.length = place + 1 := length_of_drop h
      rw [scanAscii, dif_neg (by omega), readAt_bind h, if_neg (by decide),
        if_pos (Nat.le_of_eq hlength)]
      rfl
  | case3 c hplain =>
      have hlength : text.length = place + 1 := length_of_drop h
      rw [scanAscii, dif_neg (by omega), readAt_bind h, if_pos hplain, scanAscii,
        dif_pos (Nat.le_of_eq hlength)]
      rfl
  | case4 c e rest hplain ih =>
      have hlength := length_of_drop h
      rw [scanAscii, dif_neg (by omega), readAt_bind h, if_pos hplain, ih (drop_succ_of_drop h)]
      cases parseAscii (e :: rest) <;> rfl
  | case5 c rest hplain ih =>
      have hnext := drop_succ_of_drop h
      have hlength := length_of_drop hnext
      rw [scanAscii, dif_neg (by omega), readAt_bind h, if_neg hplain, if_neg (by omega),
        readAt_bind hnext, if_pos rfl, ih (drop_succ_of_drop hnext)]
      cases parseAscii rest <;> rfl
  | case6 c rest hplain hmark ih =>
      have hnext := drop_succ_of_drop h
      have hlength := length_of_drop hnext
      rw [scanAscii, dif_neg (by omega), readAt_bind h, if_neg hplain, if_neg (by omega),
        readAt_bind hnext, if_neg hmark, if_pos rfl, ih (drop_succ_of_drop hnext)]
      cases parseAscii rest <;> rfl
  | case7 c hplain b₁ b₂ rest high low hlow hhigh hmark hbackslash ih =>
      have hnext := drop_succ_of_drop h
      have hfirst := drop_succ_of_drop hnext
      have hsecond := drop_succ_of_drop hfirst
      have hlength := length_of_drop hsecond
      rw [scanAscii, dif_neg (by omega), readAt_bind h, if_neg hplain, if_neg (by omega),
        readAt_bind hnext, if_neg hmark, if_neg hbackslash, if_pos rfl, if_neg (by omega),
        readAt_bind hfirst, readAt_bind hsecond, hhigh, hlow]
      dsimp only
      rw [ih (drop_succ_of_drop hsecond)]
      cases parseAscii rest <;> rfl
  | case8 c hplain b₁ b₂ rest hbad hmark hbackslash =>
      have hnext := drop_succ_of_drop h
      have hfirst := drop_succ_of_drop hnext
      have hsecond := drop_succ_of_drop hfirst
      have hlength := length_of_drop hsecond
      rw [scanAscii, dif_neg (by omega), readAt_bind h, if_neg hplain, if_neg (by omega),
        readAt_bind hnext, if_neg hmark, if_neg hbackslash, if_pos rfl, if_neg (by omega),
        readAt_bind hfirst, readAt_bind hsecond]
      split
      · rename_i hhigh hlow
        exact absurd (hbad _ _ hhigh hlow) not_false
      · rfl
  | case9 c rest hplain hshort hmark hbackslash =>
      have hnext := drop_succ_of_drop h
      have hlength := length_of_drop hnext
      have hend : rest.length < 2 := by
        rcases rest with _ | ⟨b₁, _ | ⟨b₂, rest⟩⟩
        · decide
        · exact Nat.one_lt_two
        · exact absurd (hshort _ _ _ rfl) not_false
      rw [scanAscii, dif_neg (by omega), readAt_bind h, if_neg hplain, if_neg (by omega),
        readAt_bind hnext, if_neg hmark, if_neg hbackslash, if_pos rfl, if_pos (by omega)]
      rfl
  | case10 c e rest hplain hmark hbackslash hdigits =>
      have hnext := drop_succ_of_drop h
      have hlength := length_of_drop hnext
      rw [scanAscii, dif_neg (by omega), readAt_bind h, if_neg hplain, if_neg (by omega),
        readAt_bind hnext, if_neg hmark, if_neg hbackslash, if_neg hdigits]
      rfl

/-- The scan with checked reads finds what reading finds, and never reads behind the end. -/
theorem scan_eq (encoding : Encoding) (text : Text) :
    scan encoding text = (parse encoding text).mapError .refused := by
  cases encoding with
  | hex => exact scanHex_of_drop List.drop_zero
  | ascii => exact scanAscii_of_drop List.drop_zero

end Scan

/-- Reading accepts exactly the texts that the grammar of their encoding gives a pattern, and
finds this pattern.  Every other text is refused: it can be followed up to a place where no item
begins, and the error says why.  A scan by place leads to the same and reads no byte behind the
end. -/
theorem parse_decides_grammar (encoding : Encoding) (text : Text) :
    (∀ pattern, parse encoding text = .ok pattern ↔ Denotes encoding text pattern) ∧
      ((∃ error, parse encoding text = .error error) ↔
        ∀ pattern, ¬ Denotes encoding text pattern) ∧
      (∀ error, parse encoding text = .error error ↔
        ∃ front rest pattern, text = front ++ rest ∧ Denotes encoding front pattern ∧
          Blocks encoding front.length rest error) ∧
      scan encoding text = (parse encoding text).mapError .refused := by
  refine ⟨fun pattern => parse_eq_ok_iff, ?_, fun error => parse_eq_error_iff,
    scan_eq encoding text⟩
  constructor
  · rintro ⟨error, herror⟩ pattern hdenotes
    rw [hdenotes.parse_eq] at herror
    cases herror
  · intro hnone
    rcases hparse : parse encoding text with error | pattern
    · exact ⟨error, rfl⟩
    · exact absurd (parse_eq_ok_iff.1 hparse) (hnone pattern)

/-- A digit that is split from its partner, or has none, is refused. -/
example :
    parse .hex (ascii "d e") = .error .oddDigits ∧
      parse .hex (ascii "de a") = .error .oddDigits ∧
      parse .hex (ascii "\tdE ??") = .ok [.literal 222, .wildcard] := by
  decide

end Pattern

end HexEditor
