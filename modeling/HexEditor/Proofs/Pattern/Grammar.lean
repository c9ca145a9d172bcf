import HexEditor.Proofs.Pattern.Notation

/-!
# The texts that stand for patterns

In hex, a text is a row of blanks, pairs of digits and pairs of question marks.  In ascii, it
is a row of bytes that are no backslash and of escapes.  A grammar says so for each encoding,
and reading a text finds the pattern that the grammar gives it.  A text that is refused can be
followed along the grammar up to some place, and the bytes from this place on begin no item.

Main results:

- Definition `Pattern.Denotes`: the pattern that the grammar of an encoding gives a text.
- Definition `Pattern.Blocks`: why a text begins with no item of an encoding.
- Theorem `Pattern.exists_denotes_append`: every text can be followed to its end, or to a place
  where no item begins.
- Theorems `Pattern.parse_eq_ok_iff` and `Pattern.parse_eq_error_iff`: reading finds the pattern,
  or else the reason.
-/

namespace HexEditor

/-! ## Digits and blanks -/

namespace Text

/-- The byte of a character below 256. -/
def byte (c : Char) : UInt8 :=
  c.toNat.toUInt8

/-- The byte is the digit of the value, in one of the two cases. -/
def IsDigit (value : Nat) (b : UInt8) : Prop :=
  (ascii "0123456789abcdef")[value]? = some b ∨ (ascii "0123456789ABCDEF")[value]? = some b

/-- The two bytes are the digits of a byte, the upper half first. -/
def AreDigits (byte c d : UInt8) : Prop :=
  IsDigit (byte.toNat / 16) c ∧ IsDigit (byte.toNat % 16) d

/-- The blanks: space, tab, line feed, vertical tab, form feed and carriage return. -/
def blanks : Text :=
  ascii " \t\n\x0b\x0c\r"

theorem isBlank_iff (b : UInt8) : isBlank b = true ↔ b ∈ blanks := by
  have hblanks : blanks = [32, 9, 10, 11, 12, 13] := by decide
  simp only [isBlank, hblanks, List.mem_cons, List.not_mem_nil, or_false, Bool.or_eq_true,
    beq_iff_eq, Bool.and_eq_true, decide_eq_true_eq, UInt8.le_iff_toNat_le, ← UInt8.toNat_inj]
  change b.toNat = 32 ∨ 9 ≤ b.toNat ∧ b.toNat ≤ 13 ↔ b.toNat = 32 ∨ b.toNat = 9 ∨ b.toNat = 10 ∨
    b.toNat = 11 ∨ b.toNat = 12 ∨ b.toNat = 13
  omega

/-- The digits of either case have their values, and nothing else is a digit. -/
theorem hexDigit?_eq_some_iff {b : UInt8} {value : Nat} :
    hexDigit? b = some value ↔ IsDigit value b := by
  have hlower : ∀ v < 16, (ascii "0123456789abcdef")[v]?.bind hexDigit? = some v := by decide
  have hupper : ∀ v < 16, (ascii "0123456789ABCDEF")[v]?.bind hexDigit? = some v := by decide
  have hdecimals : ∀ k < 10, (ascii "0123456789abcdef")[k]? = some (UInt8.ofNat (48 + k)) := by
    decide
  have hsmalls : ∀ k < 6, (ascii "0123456789abcdef")[10 + k]? = some (UInt8.ofNat (97 + k)) := by
    decide
  have hcapitals : ∀ k < 6, (ascii "0123456789ABCDEF")[10 + k]? = some (UInt8.ofNat (65 + k)) := by
    decide
  constructor
  · intro hdigit
    unfold hexDigit? at hdigit
    simp only [UInt8.le_iff_toNat_le] at hdigit
    split_ifs at hdigit with hdecimal hsmall hcapital
    · have hlow : 48 ≤ b.toNat := hdecimal.1
      have hhigh : b.toNat ≤ 57 := hdecimal.2
      cases hdigit
      have hentry := hdecimals (b.toNat - 48) (by omega)
      rw [Nat.add_sub_cancel' hlow, UInt8.ofNat_toNat] at hentry
      exact Or.inl hentry
    · have hlow : 97 ≤ b.toNat := hsmall.1
      have hhigh : b.toNat ≤ 102 := hsmall.2
      cases hdigit
      have hentry := hsmalls (b.toNat - 97) (by omega)
      rw [Nat.add_sub_cancel' hlow, UInt8.ofNat_toNat,
        show 10 + (b.toNat - 97) = b.toNat - 87 by omega] at hentry
      exact Or.inl hentry
    · have hlow : 65 ≤ b.toNat := hcapital.1
      have hhigh : b.toNat ≤ 70 := hcapital.2
      cases hdigit
      have hentry := hcapitals (b.toNat - 65) (by omega)
      rw [Nat.add_sub_cancel' hlow, UInt8.ofNat_toNat,
        show 10 + (b.toNat - 65) = b.toNat - 55 by omega] at hentry
      exact Or.inr hentry
  · rintro (hdigit | hdigit)
    · rcases List.getElem?_eq_some_iff.1 hdigit with ⟨hlt, -⟩
      have hvalue := hlower value hlt
      rw [hdigit] at hvalue
      exact hvalue
    · rcases List.getElem?_eq_some_iff.1 hdigit with ⟨hlt, -⟩
      have hvalue := hupper value hlt
      rw [hdigit] at hvalue
      exact hvalue

theorem lt_of_hexDigit? {b : UInt8} {value : Nat} (h : hexDigit? b = some value) :
    value < 16 := by
  rcases hexDigit?_eq_some_iff.1 h with hdigit | hdigit
  · exact (List.getElem?_eq_some_iff.1 hdigit).1
  · exact (List.getElem?_eq_some_iff.1 hdigit).1

/-- Two digits are those of the byte that they are put together to. -/
theorem areDigits_iff {byte c d : UInt8} :
    AreDigits byte c d ↔ ∃ high low, hexDigit? c = some high ∧ hexDigit? d = some low ∧
      Pattern.byteOf high low = byte := by
  constructor
  · rintro ⟨hhigh, hlow⟩
    exact ⟨_, _, hexDigit?_eq_some_iff.2 hhigh, hexDigit?_eq_some_iff.2 hlow,
      Pattern.byteOf_halves byte⟩
  · rintro ⟨high, low, hhigh, hlow, rfl⟩
    have hhigh' := lt_of_hexDigit? hhigh
    have hlow' := lt_of_hexDigit? hlow
    have hbyte : (Pattern.byteOf high low).toNat = 16 * high + low := by
      rw [Pattern.byteOf]
      exact Nat.mod_eq_of_lt (by omega)
    have hupper : (16 * high + low) / 16 = high := by omega
    have hlower : (16 * high + low) % 16 = low := by omega
    rw [AreDigits, hbyte, hupper, hlower]
    exact ⟨hexDigit?_eq_some_iff.1 hhigh, hexDigit?_eq_some_iff.1 hlow⟩

end Text

namespace Pattern

/-! ## The grammar -/

/-- The text denotes the pattern in hex. -/
inductive DenotesHex : Text → Pattern → Prop where
  /-- Nothing denotes the empty pattern. -/
  | nil : DenotesHex [] []
  /-- A blank means nothing. -/
  | blank {b : UInt8} {text : Text} {pattern : Pattern} (hblank : b ∈ Text.blanks)
      (rest : DenotesHex text pattern) : DenotesHex (b :: text) pattern
  /-- Two digits that stand side by side are a literal byte. -/
  | pair {byte c d : UInt8} {text : Text} {pattern : Pattern} (digits : Text.AreDigits byte c d)
      (rest : DenotesHex text pattern) : DenotesHex (c :: d :: text) (.literal byte :: pattern)
  /-- Two question marks are a wildcard. -/
  | wildcard {text : Text} {pattern : Pattern} (rest : DenotesHex text pattern) :
      DenotesHex (Text.byte '?' :: Text.byte '?' :: text) (.wildcard :: pattern)

/-- The text denotes the pattern in ascii. -/
inductive DenotesAscii : Text → Pattern → Prop where
  /-- Nothing denotes the empty pattern. -/
  | nil : DenotesAscii [] []
  /-- A byte that is no backslash stands for itself. -/
  | plain {b : UInt8} {text : Text} {pattern : Pattern} (hplain : b ≠ Text.byte '\\')
      (rest : DenotesAscii text pattern) : DenotesAscii (b :: text) (.literal b :: pattern)
  /-- An escaped question mark is a wildcard. -/
  | wildcard {text : Text} {pattern : Pattern} (rest : DenotesAscii text pattern) :
      DenotesAscii (Text.byte '\\' :: Text.byte '?' :: text) (.wildcard :: pattern)
  /-- An escaped backslash is a backslash. -/
  | backslash {text : Text} {pattern : Pattern} (rest : DenotesAscii text pattern) :
      DenotesAscii (Text.byte '\\' :: Text.byte '\\' :: text)
        (.literal (Text.byte '\\') :: pattern)
  /-- An escape with two digits is the byte with these digits. -/
  | byte {byte c d : UInt8} {text : Text} {pattern : Pattern} (digits : Text.AreDigits byte c d)
      (rest : DenotesAscii text pattern) :
      DenotesAscii (Text.byte '\\' :: Text.byte 'x' :: c :: d :: text) (.literal byte :: pattern)

/-- The text denotes the pattern in the encoding. -/
def Denotes : Encoding → Text → Pattern → Prop
  | .hex => DenotesHex
  | .ascii => DenotesAscii

/-- At the place, the text begins with no item of hex, for the given reason. -/
inductive BlocksHex (place : Nat) : Text → PatternError → Prop where
  /-- A single byte is left, which is no blank and no question mark. -/
  | lone {c : UInt8} (hblank : c ∉ Text.blanks) (hmark : c ≠ Text.byte '?') :
      BlocksHex place [c] .oddDigits
  /-- A single question mark is left. -/
  | loneMark : BlocksHex place [Text.byte '?'] (.loneWildcard place)
  /-- A question mark stands beside something else. -/
  | halfMark {c d : UInt8} {text : Text} (hblank : c ∉ Text.blanks)
      (hone : c = Text.byte '?' ↔ d ≠ Text.byte '?') :
      BlocksHex place (c :: d :: text) (.loneWildcard place)
  /-- The first byte of a pair is no digit. -/
  | first {c d : UInt8} {text : Text} (hblank : c ∉ Text.blanks) (hmark : c ≠ Text.byte '?')
      (hmark' : d ≠ Text.byte '?') (hdigit : ∀ value, ¬ Text.IsDigit value c) :
      BlocksHex place (c :: d :: text) (.notADigit c)
  /-- A blank splits a pair. -/
  | split {c d : UInt8} {text : Text} {value : Nat} (hdigit : Text.IsDigit value c)
      (hblank : d ∈ Text.blanks) : BlocksHex place (c :: d :: text) .oddDigits
  /-- The second byte of a pair is no digit. -/
  | second {c d : UInt8} {text : Text} {value : Nat} (hdigit : Text.IsDigit value c)
      (hblank : d ∉ Text.blanks) (hmark : d ≠ Text.byte '?')
      (hdigit' : ∀ value, ¬ Text.IsDigit value d) :
      BlocksHex place (c :: d :: text) (.notADigit d)

/-- The text begins with no item of ascii, for the given reason. -/
inductive BlocksAscii : Text → PatternError → Prop where
  /-- The text ends after a backslash. -/
  | openEscape : BlocksAscii [Text.byte '\\'] .openEscape
  /-- The byte behind a backslash begins no escape. -/
  | unknown {e : UInt8} {text : Text} (hescape : e ∉ ascii "?\\x") :
      BlocksAscii (Text.byte '\\' :: e :: text) (.unknownEscape e)
  /-- The text ends within the digits of an escape. -/
  | short {text : Text} (hshort : text.length < 2) :
      BlocksAscii (Text.byte '\\' :: Text.byte 'x' :: text) .shortByteEscape
  /-- The two bytes of an escape are not both digits. -/
  | digits {c d : UInt8} {text : Text} (hdigits : ∀ byte, ¬ Text.AreDigits byte c d) :
      BlocksAscii (Text.byte '\\' :: Text.byte 'x' :: c :: d :: text) .badByteEscape

/-- At the place, the text begins with no item of the encoding, for the given reason. -/
def Blocks : Encoding → Nat → Text → PatternError → Prop
  | .hex, place => BlocksHex place
  | .ascii, _ => BlocksAscii

section Grammar

variable {encoding : Encoding} {front rest text : Text} {pattern others : Pattern}
  {place : Nat} {error : PatternError}

theorem DenotesHex.append (h : DenotesHex front pattern) (hrest : DenotesHex rest others) :
    DenotesHex (front ++ rest) (pattern ++ others) := by
  induction h with
  | nil => exact hrest
  | blank hblank _ ih => exact ih.blank hblank
  | pair digits _ ih => exact ih.pair digits
  | wildcard _ ih => exact ih.wildcard

theorem DenotesAscii.append (h : DenotesAscii front pattern)
    (hrest : DenotesAscii rest others) : DenotesAscii (front ++ rest) (pattern ++ others) := by
  induction h with
  | nil => exact hrest
  | plain hplain _ ih => exact ih.plain hplain
  | wildcard _ ih => exact ih.wildcard
  | backslash _ ih => exact ih.backslash
  | byte digits _ ih => exact ih.byte digits

theorem denotes_nil (encoding : Encoding) : Denotes encoding [] [] := by
  cases encoding with
  | hex => exact .nil
  | ascii => exact .nil

/-- What two texts denote one after the other. -/
theorem Denotes.append (h : Denotes encoding front pattern)
    (hrest : Denotes encoding rest others) :
    Denotes encoding (front ++ rest) (pattern ++ others) := by
  cases encoding with
  | hex => exact DenotesHex.append h hrest
  | ascii => exact DenotesAscii.append h hrest

/-- A text that is not empty begins with an item of hex, or with none for some reason. -/
theorem denotesHex_or_blocksHex (place : Nat) (htext : text ≠ []) :
    (∃ item rest pattern, item ≠ [] ∧ text = item ++ rest ∧ DenotesHex item pattern) ∨
      ∃ error, BlocksHex place text error := by
  rcases List.exists_cons_of_ne_nil htext with ⟨c, tail, rfl⟩
  by_cases hblank : c ∈ Text.blanks
  · exact .inl ⟨[c], tail, [], by simp, rfl, DenotesHex.nil.blank hblank⟩
  · rcases tail with _ | ⟨d, rest⟩
    · by_cases hmark : c = Text.byte '?'
      · rw [hmark]
        exact .inr ⟨_, .loneMark⟩
      · exact .inr ⟨_, .lone hblank hmark⟩
    · by_cases hmark : c = Text.byte '?' <;> by_cases hmark' : d = Text.byte '?'
      · rw [hmark, hmark']
        exact .inl ⟨ascii "??", rest, [.wildcard], by decide, rfl, DenotesHex.nil.wildcard⟩
      · exact .inr ⟨_, .halfMark hblank (by tauto)⟩
      · exact .inr ⟨_, .halfMark hblank (by tauto)⟩
      · rcases hfirst : Text.hexDigit? c with _ | high
        · refine .inr ⟨_, .first hblank hmark hmark' fun value hdigit => ?_⟩
          rw [Text.hexDigit?_eq_some_iff.2 hdigit] at hfirst
          cases hfirst
        · have hdigit := Text.hexDigit?_eq_some_iff.1 hfirst
          rcases hsecond : Text.hexDigit? d with _ | low
          · by_cases hsplit : d ∈ Text.blanks
            · exact .inr ⟨_, .split hdigit hsplit⟩
            · refine .inr ⟨_, .second hdigit hsplit hmark' fun value hdigit' => ?_⟩
              rw [Text.hexDigit?_eq_some_iff.2 hdigit'] at hsecond
              cases hsecond
          · have hdigits := Text.areDigits_iff.2 ⟨high, low, hfirst, hsecond, rfl⟩
            exact .inl ⟨[c, d], rest, [.literal _], by simp, rfl, DenotesHex.nil.pair hdigits⟩

theorem denotesAscii_or_blocksAscii (htext : text ≠ []) :
    (∃ item rest pattern, item ≠ [] ∧ text = item ++ rest ∧ DenotesAscii item pattern) ∨
      ∃ error, BlocksAscii text error := by
  rcases List.exists_cons_of_ne_nil htext with ⟨c, tail, rfl⟩
  by_cases hplain : c = Text.byte '\\'
  · subst hplain
    rcases tail with _ | ⟨e, rest⟩
    · exact .inr ⟨_, .openEscape⟩
    · by_cases hescape : e ∈ ascii "?\\x"
      · have hthree : e = Text.byte '?' ∨ e = Text.byte '\\' ∨ e = Text.byte 'x' := by
          simpa [ascii, Text.byte] using hescape
        rcases hthree with rfl | rfl | rfl
        · exact .inl ⟨ascii "\\?", rest, _, by decide, rfl, DenotesAscii.nil.wildcard⟩
        · exact .inl ⟨ascii "\\\\", rest, _, by decide, rfl, DenotesAscii.nil.backslash⟩
        · rcases rest with _ | ⟨c, _ | ⟨d, rest⟩⟩
          · exact .inr ⟨_, @BlocksAscii.short [] (by simp)⟩
          · exact .inr ⟨_, @BlocksAscii.short [c] (by simp)⟩
          · by_cases hdigits : ∃ byte, Text.AreDigits byte c d
            · rcases hdigits with ⟨byte, hdigits⟩
              exact .inl ⟨ascii "\\x" ++ [c, d], rest, _, by simp [ascii], rfl,
                DenotesAscii.nil.byte hdigits⟩
            · exact .inr ⟨_, .digits (not_exists.1 hdigits)⟩
      · exact .inr ⟨_, .unknown hescape⟩
  · exact .inl ⟨[c], tail, _, by simp, rfl, DenotesAscii.nil.plain hplain⟩

theorem denotes_or_blocks (encoding : Encoding) (place : Nat) (htext : text ≠ []) :
    (∃ item rest pattern, item ≠ [] ∧ text = item ++ rest ∧ Denotes encoding item pattern) ∨
      ∃ error, Blocks encoding place text error := by
  cases encoding with
  | hex => exact denotesHex_or_blocksHex place htext
  | ascii => exact denotesAscii_or_blocksAscii htext

/-- Every text can be followed along the grammar up to its end, or to a place where no item
begins. -/
theorem exists_denotes_append (encoding : Encoding) (place : Nat) (text : Text) :
    ∃ front rest pattern, text = front ++ rest ∧ Denotes encoding front pattern ∧
      (rest = [] ∨ ∃ error, Blocks encoding (place + front.length) rest error) := by
  induction hsize : text.length using Nat.strongRecOn generalizing place text with
  | ind size ih =>
      rcases eq_or_ne text [] with rfl | htext
      · exact ⟨[], [], [], rfl, denotes_nil encoding, .inl rfl⟩
      · rcases denotes_or_blocks encoding place htext with
          ⟨item, behind, pattern, hitem, rfl, hdenotes⟩ | ⟨error, hblocks⟩
        · have hpos := List.length_pos_iff.2 hitem
          rw [List.length_append] at hsize
          rcases ih behind.length (by omega) (place + item.length) behind rfl with
            ⟨front, rest, others, rfl, hfront, hend⟩
          refine ⟨item ++ front, rest, pattern ++ others, (List.append_assoc ..).symm,
            hdenotes.append hfront, ?_⟩
          rw [List.length_append, ← Nat.add_assoc]
          exact hend
        · exact ⟨[], text, [], rfl, denotes_nil encoding, .inr ⟨error, hblocks⟩⟩

/-! ## Reading follows the grammar -/

theorem isBlank_of_not_mem {c : UInt8} (h : c ∉ Text.blanks) : Text.isBlank c = false :=
  Bool.eq_false_iff.2 (mt (Text.isBlank_iff c).1 h)

theorem hexDigit?_eq_none {c : UInt8} (h : ∀ value, ¬ Text.IsDigit value c) :
    Text.hexDigit? c = none :=
  Option.eq_none_iff_forall_ne_some.2 fun value hvalue =>
    h value (Text.hexDigit?_eq_some_iff.1 hvalue)

/-- A digit is neither a blank nor a question mark, and a blank is no question mark either. -/
theorem hexDigit?_of_mem_blanks {b : UInt8} (h : b ∈ Text.blanks) :
    Text.hexDigit? b = none ∧ b ≠ 63 := by
  have hall : (Text.blanks.all fun b => Text.hexDigit? b = none ∧ b ≠ 63) = true := by decide
  exact of_decide_eq_true (List.all_eq_true.1 hall b h)

theorem not_mem_blanks_of_isDigit {c : UInt8} {value : Nat} (h : Text.IsDigit value c) :
    c ∉ Text.blanks ∧ c ≠ 63 := by
  have hvalue := Text.hexDigit?_eq_some_iff.2 h
  constructor
  · intro hblank
    rw [(hexDigit?_of_mem_blanks hblank).1] at hvalue
    cases hvalue
  · rintro rfl
    cases hvalue

/-- A piece in front of the pieces in front of what is read. -/
theorem map_cons_map_append (result : Except PatternError Pattern) (piece : Piece)
    (pattern : Pattern) :
    (result.map (pattern ++ ·)).map (piece :: ·) = result.map (piece :: pattern ++ ·) := by
  cases result <;> rfl

theorem map_nil_append (result : Except PatternError Pattern) :
    result.map (([] : Pattern) ++ ·) = result := by
  cases result <;> rfl

/-- What denotes a pattern in hex is read as this pattern, and reading goes on behind it. -/
theorem DenotesHex.parseHex_append (h : DenotesHex front pattern) (place : Nat) (rest : Text) :
    parseHex place (front ++ rest) =
      (parseHex (place + front.length) rest).map (pattern ++ ·) := by
  induction h generalizing place with
  | nil => exact (map_nil_append _).symm
  | @blank b text pattern hblank _ ih =>
      have hplace : place + 1 + text.length = place + (b :: text).length := by
        rw [List.length_cons]
        omega
      rw [List.cons_append, parseHex_blank ((Text.isBlank_iff b).2 hblank), ih, hplace]
  | @pair byte c d text pattern digits _ ih =>
      rcases Text.areDigits_iff.1 digits with ⟨high, low, hhigh, hlow, rfl⟩
      rcases not_mem_blanks_of_isDigit digits.1 with ⟨hblank, hmark⟩
      have hmark' := (not_mem_blanks_of_isDigit digits.2).2
      have hpair : parsePair place c d = .ok (.literal (byteOf high low)) := by
        rw [parsePair, if_neg (by tauto), if_neg (by tauto), hhigh, hlow]
      have hplace : place + 2 + text.length = place + (c :: d :: text).length := by
        rw [List.length_cons, List.length_cons]
        omega
      rw [List.cons_append, List.cons_append, parseHex_pair (isBlank_of_not_mem hblank) hpair, ih,
        map_cons_map_append, hplace]
  | @wildcard text pattern _ ih =>
      have hpair : parsePair place (Text.byte '?') (Text.byte '?') = .ok .wildcard := rfl
      have hplace : place + 2 + text.length =
          place + (Text.byte '?' :: Text.byte '?' :: text).length := by
        rw [List.length_cons, List.length_cons]
        omega
      rw [List.cons_append, List.cons_append, parseHex_pair rfl hpair, ih, map_cons_map_append,
        hplace]

/-- What denotes a pattern in ascii is read as this pattern, and reading goes on behind it. -/
theorem DenotesAscii.parseAscii_append (h : DenotesAscii front pattern) (rest : Text) :
    parseAscii (front ++ rest) = (parseAscii rest).map (pattern ++ ·) := by
  induction h with
  | nil => exact (map_nil_append _).symm
  | plain hplain _ ih =>
      rw [List.cons_append, parseAscii_cons hplain, ih, map_cons_map_append]
  | @wildcard text pattern _ ih =>
      change parseAscii (92 :: 63 :: (text ++ rest)) = _
      rw [parseAscii_escapedMark, ih, map_cons_map_append]
  | @backslash text pattern _ ih =>
      change parseAscii (92 :: 92 :: (text ++ rest)) = _
      rw [parseAscii_escapedBackslash, ih, map_cons_map_append]
      rfl
  | @byte byte c d text pattern digits _ ih =>
      rcases Text.areDigits_iff.1 digits with ⟨high, low, hhigh, hlow, rfl⟩
      change parseAscii (92 :: 120 :: c :: d :: (text ++ rest)) = _
      rw [parseAscii_escapedDigits hhigh hlow, ih, map_cons_map_append]

theorem parseHex_of_parsePair_error {c d : UInt8} (hblank : c ∉ Text.blanks)
    (hpair : parsePair place c d = .error error) (text : Text) :
    parseHex place (c :: d :: text) = .error error := by
  rw [parseHex, isBlank_of_not_mem hblank, if_neg Bool.false_ne_true, hpair]
  rfl

/-- Where no item of hex begins, reading is refused for the same reason. -/
theorem BlocksHex.parseHex_eq (h : BlocksHex place text error) :
    parseHex place text = .error error := by
  cases h with
  | @lone c hblank hmark =>
      have hmark' : c ≠ 63 := hmark
      simp [parseHex, isBlank_of_not_mem hblank, hmark']
  | loneMark => rfl
  | @halfMark c d text hblank hone =>
      have hone' : c = 63 ↔ d ≠ 63 := hone
      refine parseHex_of_parsePair_error hblank ?_ text
      rw [parsePair, if_neg (by tauto), if_pos (by tauto)]
  | @first c d text hblank hmark hmark' hdigit =>
      have hneither : c ≠ 63 ∧ d ≠ 63 := ⟨hmark, hmark'⟩
      refine parseHex_of_parsePair_error hblank ?_ text
      rw [parsePair, if_neg (by tauto), if_neg (by tauto), hexDigit?_eq_none hdigit]
  | @split c d text value hdigit hblank =>
      have hfirst := Text.hexDigit?_eq_some_iff.2 hdigit
      rcases not_mem_blanks_of_isDigit hdigit with ⟨hblank', hmark⟩
      rcases hexDigit?_of_mem_blanks hblank with ⟨hsecond, hmark'⟩
      refine parseHex_of_parsePair_error hblank' ?_ text
      rw [parsePair, if_neg (by tauto), if_neg (by tauto), hfirst, hsecond]
      dsimp only
      rw [if_pos ((Text.isBlank_iff d).2 hblank)]
  | @second c d text value hdigit hblank hmark hdigit' =>
      have hfirst := Text.hexDigit?_eq_some_iff.2 hdigit
      rcases not_mem_blanks_of_isDigit hdigit with ⟨hblank', hmark'⟩
      have hneither : c ≠ 63 ∧ d ≠ 63 := ⟨hmark', hmark⟩
      refine parseHex_of_parsePair_error hblank' ?_ text
      rw [parsePair, if_neg (by tauto), if_neg (by tauto), hfirst, hexDigit?_eq_none hdigit']
      dsimp only
      rw [isBlank_of_not_mem hblank, if_neg Bool.false_ne_true]

/-- Where no item of ascii begins, reading is refused for the same reason. -/
theorem BlocksAscii.parseAscii_eq (h : BlocksAscii text error) :
    parseAscii text = .error error := by
  cases h with
  | openEscape => rfl
  | @unknown e text hescape =>
      have hthree : ¬ (e = 63 ∨ e = 92 ∨ e = 120) := by simpa [ascii] using hescape
      have hbackslash : ¬ Text.byte '\\' ≠ 92 := by decide
      rw [parseAscii.eq_def]
      dsimp only
      rw [if_neg hbackslash, if_neg (by tauto), if_neg (by tauto), if_neg (by tauto)]
  | @short text hshort =>
      rcases text with _ | ⟨c, _ | ⟨d, rest⟩⟩
      · rfl
      · rfl
      · rw [List.length_cons, List.length_cons] at hshort
        omega
  | @digits c d text hdigits =>
      have hbad : ∀ high low, Text.hexDigit? c = some high → Text.hexDigit? d = some low →
          False := by
        intro high low hhigh hlow
        exact hdigits _ (Text.areDigits_iff.2 ⟨high, low, hhigh, hlow, rfl⟩)
      change parseAscii (92 :: 120 :: c :: d :: text) = _
      rw [parseAscii.eq_def]
      dsimp only
      rw [if_neg (by decide), if_neg (by decide), if_neg (by decide), if_pos rfl]
      split
      · rename_i hhigh hlow
        exact absurd (hbad _ _ hhigh hlow) not_false
      · rfl

/-- Read a pattern in the encoding, from the given place on. -/
def parseFrom : Encoding → Nat → Text → Except PatternError Pattern
  | .hex, place => parseHex place
  | .ascii, _ => parseAscii

theorem parse_eq_parseFrom (encoding : Encoding) (text : Text) :
    parse encoding text = parseFrom encoding 0 text := by
  cases encoding <;> rfl

theorem Denotes.parseFrom_append (h : Denotes encoding front pattern) (place : Nat)
    (rest : Text) :
    parseFrom encoding place (front ++ rest) =
      (parseFrom encoding (place + front.length) rest).map (pattern ++ ·) := by
  cases encoding with
  | hex => exact DenotesHex.parseHex_append h place rest
  | ascii => exact DenotesAscii.parseAscii_append h rest

theorem Blocks.parseFrom_eq (h : Blocks encoding place text error) :
    parseFrom encoding place text = .error error := by
  cases encoding with
  | hex => exact BlocksHex.parseHex_eq h
  | ascii => exact BlocksAscii.parseAscii_eq h

theorem Denotes.parse_eq (h : Denotes encoding text pattern) :
    parse encoding text = .ok pattern := by
  have hread := h.parseFrom_append 0 []
  have hnil : ∀ place, parseFrom encoding place [] = .ok [] := by
    intro place
    cases encoding <;> rfl
  rw [List.append_nil, hnil, ← parse_eq_parseFrom] at hread
  rw [hread]
  exact congrArg Except.ok (List.append_nil pattern)

theorem Denotes.parse_append_eq (h : Denotes encoding front pattern)
    (hblocks : Blocks encoding front.length rest error) :
    parse encoding (front ++ rest) = .error error := by
  have hread := h.parseFrom_append 0 rest
  rw [Nat.zero_add, hblocks.parseFrom_eq, ← parse_eq_parseFrom] at hread
  exact hread

/-- Reading a text finds the pattern that it denotes. -/
theorem parse_eq_ok_iff : parse encoding text = .ok pattern ↔ Denotes encoding text pattern := by
  constructor
  · intro hparse
    rcases exists_denotes_append encoding 0 text with
      ⟨front, rest, others, rfl, hfront, rfl | ⟨error, hblocks⟩⟩
    · rw [List.append_nil, hfront.parse_eq] at hparse
      cases hparse
      rw [List.append_nil]
      exact hfront
    · rw [Nat.zero_add] at hblocks
      rw [hfront.parse_append_eq hblocks] at hparse
      cases hparse
  · exact Denotes.parse_eq

/-- A text is refused for what stands behind a part that denotes a pattern. -/
theorem parse_eq_error_iff :
    parse encoding text = .error error ↔
      ∃ front rest pattern, text = front ++ rest ∧ Denotes encoding front pattern ∧
        Blocks encoding front.length rest error := by
  constructor
  · intro hparse
    rcases exists_denotes_append encoding 0 text with
      ⟨front, rest, pattern, rfl, hfront, rfl | ⟨error', hblocks⟩⟩
    · rw [List.append_nil, hfront.parse_eq] at hparse
      cases hparse
    · rw [Nat.zero_add] at hblocks
      rw [hfront.parse_append_eq hblocks] at hparse
      cases hparse
      exact ⟨front, rest, pattern, rfl, hfront, hblocks⟩
  · rintro ⟨front, rest, pattern, rfl, hfront, hblocks⟩
    exact hfront.parse_append_eq hblocks

end Grammar

end Pattern

end HexEditor
