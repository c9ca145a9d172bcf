import HexEditor.Editor.Press
import HexEditor.Proofs.Selection.Moving
import Mathlib.Data.List.Induction
import Mathlib.Data.Nat.Digits.Defs
import Mathlib.Tactic.Common

/-!
# Typing counts

A count is typed digit by digit, in decimal or, behind the key that changes the base, in
hexadecimal.  After any number of digits it is the number that they denote, or the largest offset
if the number does not fit.  That the next digit would make it too large is found by a division
beforehand, so a count does not wrap when it is computed in words of 64 bits either.

Main results:

- Definitions `Count.numeral` and `Count.entered`: the number that digits denote and the count that
  they leave.
- Theorem `Count.digit?_digitCode`: one digit, and theorem `Count.foldlM_digit?`: any number of
  them.
- Definition `Count.typeWord` and theorem `Count.toNat_enteredWord`: the same in words.
- Definition `Count.steps`: how often digits ask for something to be done.
- Theorem `Editor.foldlM_press_countKeys`: the keys that type a count change nothing else.
- Theorem `Editor.press_pieceWidth`: a count makes the width of pieces no larger than fits.
-/

namespace HexEditor

namespace Count

/-- The base of the digits, after the key that changes it or without that. -/
def baseOf (hex : Bool) : Nat := if hex then 16 else 10

theorem base_eq (c : Count) : c.base = baseOf c.hex := rfl

theorem baseOf_pos (hex : Bool) : 0 < baseOf hex := by
  cases hex <;> simp [baseOf]

theorem baseOf_le (hex : Bool) : baseOf hex ≤ 16 := by
  cases hex <;> simp [baseOf]

/-- The code of a digit.  Letters are in lowercase. -/
def digitCode (d : Nat) : Int := if d < 10 then 48 + d else 87 + d

/-- The number that digits denote, the highest digit first. -/
def numeral (base : Nat) (digits : List Nat) : Nat := Nat.ofDigits base digits.reverse

/-- The count after some digits. -/
def entered (hex : Bool) (digits : List Nat) : Count where
  value := min (numeral (baseOf hex) digits) lastOffset
  typed := !digits.isEmpty
  hex := hex

variable {c : Count} {hex : Bool} {d : Nat} {digits : List Nat}

@[simp] theorem numeral_concat (base : Nat) (digits : List Nat) (d : Nat) :
    numeral base (digits ++ [d]) = numeral base digits * base + d := by
  simp only [numeral, List.reverse_append, List.reverse_singleton, List.singleton_append,
    Nat.ofDigits_cons]
  ring

/-! ## Digits -/

/-- A digit is an offset. -/
theorem le_lastOffset_of_lt (hd : d < baseOf hex) : d ≤ lastOffset := by
  have hbase := baseOf_le hex
  have hlarge : 16 ≤ lastOffset := by decide
  omega

/-- A code stands for the digit that it is the code of. -/
theorem digitValue?_digitCode (hd : d < baseOf hex) : digitValue? hex (digitCode d) = some d := by
  unfold digitValue? digitCode
  by_cases hsmall : d < 10
  · rw [if_pos hsmall, if_pos (by omega)]
    simp
  · cases hex with
    | false => exact absurd hd hsmall
    | true =>
        have hletter : d < 16 := hd
        rw [if_neg hsmall, if_neg (by omega), if_pos ⟨rfl, by omega, by omega⟩]
        simp

/-- One more digit would make a number too large just when the number is larger than a quotient. -/
theorem div_lt_iff {base value : Nat} (hbase : 0 < base) (hd : d ≤ lastOffset) :
    (lastOffset - d) / base < value ↔ lastOffset < value * base + d := by
  rw [Nat.div_lt_iff_lt_mul hbase]
  omega

/-- A digit goes behind the number, which stops at the largest offset. -/
theorem digit?_digitCode (hd : d < baseOf c.hex) :
    c.digit? (digitCode d) = some ⟨min (c.value * baseOf c.hex + d) lastOffset, true, c.hex⟩ := by
  have hsmall := le_lastOffset_of_lt hd
  simp only [digit?, digitValue?_digitCode hd, Option.map_some, base_eq,
    div_lt_iff (baseOf_pos c.hex) hsmall]
  split_ifs with hmore
  · rw [Nat.min_eq_right (Nat.le_of_lt hmore)]
  · rw [Nat.min_eq_left (Nat.le_of_not_lt hmore)]

/-- One more digit makes the same of a number that has stopped as of the number itself. -/
theorem min_mul_add {base : Nat} (hbase : 0 < base) (n d last : Nat) :
    min (min n last * base + d) last = min (n * base + d) last := by
  rcases Nat.le_total n last with hle | hge
  · rw [Nat.min_eq_left hle]
  · rw [Nat.min_eq_right hge]
    have hstopped := Nat.le_mul_of_pos_right last hbase
    have hmore := Nat.mul_le_mul_right base hge
    omega

/-- Digits leave the number that they denote, unless it goes beyond the largest offset. -/
theorem foldlM_digit? (hdigits : ∀ d ∈ digits, d < baseOf hex) :
    digits.foldlM (fun c d => c.digit? (digitCode d)) ⟨0, false, hex⟩ = some (entered hex digits) := by
  induction digits using List.reverseRecOn with
  | nil => rfl
  | append_singleton digits d ih =>
      have hd : d < baseOf hex := hdigits d (by simp)
      rw [List.foldlM_append, ih fun d hd => hdigits d (by simp [hd])]
      change (entered hex digits).digit? (digitCode d) >>= pure = _
      rw [digit?_digitCode (show d < baseOf (entered hex digits).hex from hd)]
      simp [entered, min_mul_add (baseOf_pos hex)]

/-! ## Counts in words -/

/-- One more digit behind a word; the largest word if the number does not fit. -/
def typeWord (base value digit : UInt64) : UInt64 :=
  if (Word.last - digit) / base < value then Word.last else value * base + digit

/-- The word after some digits. -/
def enteredWord (hex : Bool) (digits : List Nat) : UInt64 :=
  digits.foldl (fun value d => typeWord (.ofNat (baseOf hex)) value (.ofNat d)) 0

/-- A digit makes the same of a word as of the number. -/
theorem toNat_typeWord {base : UInt64} (hbase : 0 < base.toNat) (value digit : UInt64) :
    (typeWord base value digit).toNat =
      min (value.toNat * base.toNat + digit.toNat) lastOffset := by
  have hdigit : digit.toNat ≤ lastOffset := Nat.le_of_lt_succ digit.toNat_lt
  have hfull : (Word.last - digit) / base < value ↔
      lastOffset < value.toNat * base.toNat + digit.toNat := by
    rw [← div_lt_iff hbase hdigit, UInt64.lt_iff_toNat_lt, UInt64.toNat_div,
      UInt64.toNat_sub_of_le _ _ hdigit, Word.toNat_last]
  unfold typeWord
  split_ifs with hmore
  · rw [Word.toNat_last, Nat.min_eq_right (Nat.le_of_lt (hfull.1 hmore))]
  · have hroom := Nat.le_of_not_lt (mt hfull.2 hmore)
    rw [Nat.min_eq_left hroom, UInt64.toNat_add, UInt64.toNat_mul]
    simp only [lastOffset, offsetCount] at hroom
    omega

/-- Digits make the same word as number. -/
theorem toNat_enteredWord (hdigits : ∀ d ∈ digits, d < baseOf hex) :
    (enteredWord hex digits).toNat = (entered hex digits).value := by
  have hbase : (UInt64.ofNat (baseOf hex)).toNat = baseOf hex := by cases hex <;> rfl
  unfold enteredWord
  induction digits using List.reverseRecOn with
  | nil => rfl
  | append_singleton digits d ih =>
      have hd : (UInt64.ofNat d).toNat = d := by
        have hsmall := hdigits d (by simp)
        have hbase := baseOf_le hex
        exact Nat.mod_eq_of_lt (by omega)
      rw [List.foldl_append, List.foldl_cons, List.foldl_nil,
        toNat_typeWord (by rw [hbase]; exact baseOf_pos hex), hbase, hd,
        ih fun d hd => hdigits d (by simp [hd])]
      simp [entered, min_mul_add (baseOf_pos hex)]

/-! ## Steps -/

/-- How often the digits ask for something to be done: without any it is once. -/
def steps (hex : Bool) (digits : List Nat) : Nat :=
  if digits = [] then 1 else numeral (baseOf hex) digits

/-- The same number as a word, or the largest word. -/
def stepsWord (hex : Bool) (digits : List Nat) : UInt64 :=
  if digits = [] then 1 else enteredWord hex digits

theorem valueOr_entered (hex : Bool) (digits : List Nat) :
    (entered hex digits).valueOr 1 = min (steps hex digits) lastOffset := by
  cases digits with
  | nil => rfl
  | cons d digits => simp [valueOr, entered, steps]

theorem toNat_stepsWord (hdigits : ∀ d ∈ digits, d < baseOf hex) :
    (stepsWord hex digits).toNat = min (steps hex digits) lastOffset := by
  unfold stepsWord steps
  by_cases hnone : digits = []
  · simp only [if_pos hnone]
    rfl
  · rw [if_neg hnone, if_neg hnone, toNat_enteredWord hdigits]
    rfl

end Count

/-! ## Keys -/

namespace Editor

variable {ed : Editor} {s : Session} {count : Count} {key : Key} {keys : List Key}

/-- The key of a digit. -/
def digitKey (d : Nat) : Key := .plain (Count.digitCode d)

/-- The keys that type a count, in hexadecimal behind the key that changes the base. -/
def countKeys (hex : Bool) (digits : List Nat) : List Key :=
  (if hex then [.plain (code 'x')] else []) ++ digits.map digitKey

/-- Where commands are read, a key that belongs to a count changes nothing but the count. -/
theorem press_countKey (hquit : ed.quit = false) (hmode : ed.mode = .normal)
    (hs : ed.workspace.current? = some s) (hkey : countKey? ed.count key = some count) :
    ed.press key = .ok { ed with count } := by
  have hescape : key ≠ .escape := by
    rintro rfl
    cases hkey
  simp only [press, hquit, Bool.false_eq_true, if_false, hs, hmode, pressNormal, if_neg hescape,
    hkey]

/-- So do any number of such keys. -/
theorem foldlM_press_count (hquit : ed.quit = false) (hmode : ed.mode = .normal)
    (hs : ed.workspace.current? = some s) (hkeys : keys.foldlM countKey? ed.count = some count) :
    keys.foldlM press ed = .ok { ed with count } := by
  induction keys generalizing ed with
  | nil =>
      cases hkeys
      rfl
  | cons key keys ih =>
      obtain ⟨next, hnext, hrest⟩ := Option.bind_eq_some_iff.1 hkeys
      rw [List.foldlM_cons, press_countKey hquit hmode hs hnext]
      exact @ih { ed with count := next } hquit hmode hs hrest

/-- The key of a digit types the digit. -/
theorem countKey?_digitKey {d : Nat} (hd : d < Count.baseOf count.hex) :
    countKey? count (digitKey d) = count.digit? (Count.digitCode d) := by
  simp [countKey?, digitKey, Key.plain, Key.plain?, Count.digit?_digitCode hd]

/-- The keys of digits type the digits. -/
theorem foldlM_map_digitKey {digits : List Nat}
    (hdigits : ∀ d ∈ digits, d < Count.baseOf count.hex) :
    (digits.map digitKey).foldlM countKey? count =
      digits.foldlM (fun c d => c.digit? (Count.digitCode d)) count := by
  induction digits generalizing count with
  | nil => rfl
  | cons d digits ih =>
      have hd := hdigits d List.mem_cons_self
      rw [List.map_cons, List.foldlM_cons, List.foldlM_cons, countKey?_digitKey hd,
        Count.digit?_digitCode hd]
      exact @ih ⟨_, true, count.hex⟩ fun d hd => hdigits d (List.mem_cons_of_mem _ hd)

/-- The keys of a count leave the count that they denote. -/
theorem foldlM_countKey? {hex : Bool} {digits : List Nat}
    (hdigits : ∀ d ∈ digits, d < Count.baseOf hex) :
    (countKeys hex digits).foldlM countKey? .empty = some (Count.entered hex digits) := by
  have hbase : (if hex then [Key.plain (code 'x')] else []).foldlM countKey? .empty =
      some ⟨0, false, hex⟩ := by
    cases hex <;> rfl
  rw [countKeys, List.foldlM_append, hbase]
  exact (foldlM_map_digitKey hdigits).trans (Count.foldlM_digit? hdigits)

/-- Where commands are read and no count is pending, the keys that type a count change nothing
else. -/
theorem foldlM_press_countKeys (hquit : ed.quit = false) (hmode : ed.mode = .normal)
    (hs : ed.workspace.current? = some s) (hcount : ed.count = .empty) {hex : Bool}
    {digits : List Nat} (hdigits : ∀ d ∈ digits, d < Count.baseOf hex) :
    (countKeys hex digits).foldlM press ed = .ok { ed with count := .entered hex digits } := by
  apply foldlM_press_count hquit hmode hs
  rw [hcount]
  exact foldlM_countKey? hdigits

/-! ## Widths -/

/-- A letter that asks for pieces asks for at most 16 offsets, and does not belong to a count unless
it is a digit. -/
theorem le_of_pieceWidth? {c : Int} {width : Nat} (hc : pieceWidth? c = some width) :
    width ≤ 16 ∧ c ≠ code 'x' := by
  unfold pieceWidth? at hc
  split_ifs at hc with hb hw hd hq ho
  all_goals
    cases hc
    subst c
    decide

/-- Whatever count is pending, a letter that asks for pieces and is no digit of the count leads to a
width that leaves room behind every selection, since the count is cut down to one more than the
length. -/
theorem press_pieceWidth {c : Int} {width : Nat} (hquit : ed.quit = false) (hmode : ed.mode = .split)
    (hs : ed.workspace.current? = some s) (hset : s.selections.Valid s.buffer.length)
    (hlength : 17 * (s.buffer.length + 1) ≤ offsetCount) (hc : pieceWidth? c = some width)
    (hdigit : ed.count.digit? c = none) :
    ∃ pieceWidth,
      ed.press (.plain c) = .ok (({ ed with count := .empty }.enter .normal).select
        (s.selections.splitWidth pieceWidth)) ∧
      ∀ t ∈ s.selections.selections, t.last + pieceWidth < offsetCount := by
  obtain ⟨hsmall, htoggle⟩ := le_of_pieceWidth? hc
  have hcount : countKey? ed.count (.plain c) = none := by
    simp [countKey?, Key.plain, Key.plain?, hdigit, htoggle]
  refine ⟨width * min (max (ed.count.valueOr 1) 1) (s.buffer.length + 1), ?_, ?_⟩
  · have hescape : Key.plain c ≠ .escape := by simp [Key.plain]
    have hplain : (Key.plain c).plain? = some c := rfl
    simp only [press, hquit, Bool.false_eq_true, if_false, hs, hmode, pressSplit, if_neg hescape,
      hcount, hplain, hc]
  · intro t ht
    have hlast := hset.last_le t ht
    have hproduct := Nat.mul_le_mul hsmall
      (Nat.min_le_right (max (ed.count.valueOr 1) 1) (s.buffer.length + 1))
    omega

end Editor

end HexEditor
