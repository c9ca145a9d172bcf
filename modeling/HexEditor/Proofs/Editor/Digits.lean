import HexEditor.Proofs.Checked
import HexEditor.Proofs.Editor.Counting

/-!
# Typing and taking back digits

A count is changed by its keys alone: digits, the key that changes the base, and the one that takes
the last digit back.  A key that is refused leaves the count as it is.  Whatever keys are pressed, a
count that is not typed stands at zero, and none of the operations that the keys call for wraps.

Typing digits leaves the number that they denote, or the largest offset if the number does not fit.
Taking a digit back divides by the base, so a number that fits loses its last digits one by one.

Main results:

- Definitions `Count.Stroke` and `Count.after`: the keys of a count and the count that they leave.
- Definition `Count.strikeChecked?` and theorem `Count.afterChecked?_eq`: no run of keys wraps.
- Theorem `Count.Settled.foldl_backspace`: what any number of digits taken back leaves.
- Theorem `Count.typing_saturates`: a number that is typed and taken back.
-/

namespace HexEditor

namespace Count

/-- A key of a count. -/
inductive Stroke where
  /-- A digit, by its code. -/
  | digit (code : Int)
  /-- The key that changes the base. -/
  | toggle
  /-- The key that takes the last digit back. -/
  | backspace

/-- The count after a key.  One that is refused leaves the count as it is. -/
def strike (c : Count) : Stroke → Count
  | .digit code => (c.digit? code).getD c
  | .toggle => c.toggleHex
  | .backspace => c.backspace?.getD c

/-- The count that some keys leave when nothing has been typed before. -/
def after (strokes : List Stroke) : Count := strokes.foldl strike empty

/-- The keys of a number, in hexadecimal behind the key that changes the base. -/
def numberStrokes (hex : Bool) (digits : List Nat) : List Stroke :=
  (if hex then [.toggle] else []) ++ digits.map fun d => .digit (digitCode d)

variable {c : Count} {hex : Bool} {d : Nat} {digits : List Nat}

/-! ## Operations with checks -/

/-- The count after a key, if every operation that the key calls for has a result. -/
def strikeChecked? (c : Count) : Stroke → Option Count
  | .digit code =>
    match digitValue? c.hex code with
    | none => some c
    | some d => do
      let room ← Checked.sub? lastOffset d
      let quotient ← Checked.div? room c.base
      if quotient < c.value then some { c with value := lastOffset, typed := true }
      else
        let product ← Checked.mul? c.value c.base
        let value ← Checked.add? product d
        some { c with value, typed := true }
  | .toggle => some c.toggleHex
  | .backspace =>
    if c.typed then do
      let value ← Checked.div? c.value c.base
      some { c with value, typed := value != 0 }
    else some c

/-- The count that some keys leave, if every operation has a result. -/
def afterChecked? (strokes : List Stroke) : Option Count := strokes.foldlM strikeChecked? empty

/-- A digit is smaller than its base. -/
theorem lt_of_digitValue? {code : Int} (hd : digitValue? hex code = some d) : d < baseOf hex := by
  unfold digitValue? at hd
  split_ifs at hd with hfigure hletter
  · cases hd
    have hbase : 10 ≤ baseOf hex := by cases hex <;> decide
    omega
  · cases hd
    obtain ⟨rfl, hletter⟩ := hletter
    have hbase : baseOf true = 16 := rfl
    omega

/-- Every operation of a key has a result, whatever the count: a product is asked for only where the
division has found room for it and the digit. -/
theorem strikeChecked?_eq (c : Count) (stroke : Stroke) :
    c.strikeChecked? stroke = some (c.strike stroke) := by
  have hbase : c.base ≠ 0 := (baseOf_pos c.hex).ne'
  cases stroke with
  | digit code =>
      cases hd : digitValue? c.hex code with
      | none => simp only [strikeChecked?, strike, digit?, hd, Option.map_none, Option.getD_none]
      | some d =>
          have hsmall := le_lastOffset_of_lt (lt_of_digitValue? hd)
          simp only [strikeChecked?, strike, digit?, hd, Option.map_some, Option.getD_some,
            Checked.sub?_eq hsmall, Checked.div?_eq hbase, Option.bind_eq_bind, Option.bind_some]
          split_ifs with hfull
          · rfl
          · have hroom : c.value * c.base + d ≤ lastOffset :=
              Nat.le_of_not_lt (mt (div_lt_iff (baseOf_pos c.hex) hsmall).2 hfull)
            have hwords : lastOffset < offsetCount := by decide
            rw [Checked.mul?_eq (by omega), Option.bind_some, Checked.add?_eq (by omega),
              Option.bind_some]
  | toggle => rfl
  | backspace =>
      simp only [strikeChecked?, strike, backspace?, Checked.div?_eq hbase, Option.bind_eq_bind,
        Option.bind_some]
      split_ifs <;> rfl

/-- So has every operation of a run of keys. -/
theorem afterChecked?_eq (strokes : List Stroke) : afterChecked? strokes = some (after strokes) := by
  unfold afterChecked? after
  -- no key needs to know where the run began
  generalize empty = c
  induction strokes generalizing c with
  | nil => rfl
  | cons stroke strokes ih =>
      rw [List.foldlM_cons, strikeChecked?_eq, List.foldl_cons]
      exact ih _

/-! ## Taking digits back -/

/-- A count that is not typed stands at zero. -/
def Settled (c : Count) : Prop := c.typed = false → c.value = 0

/-- A digit that is accepted makes a count typed. -/
theorem typed_of_digit? {code : Int} {next : Count} (h : c.digit? code = some next) :
    next.typed = true := by
  obtain ⟨d, -, rfl⟩ := Option.map_eq_some_iff.1 h
  rfl

theorem Settled.strike (h : c.Settled) (stroke : Stroke) : (c.strike stroke).Settled := by
  cases stroke with
  | digit code =>
      change ((c.digit? code).getD c).Settled
      cases hnext : c.digit? code with
      | none => exact h
      | some next =>
          intro huntyped
          rw [Option.getD_some, typed_of_digit? hnext] at huntyped
          cases huntyped
  | toggle => exact h
  | backspace =>
      cases htyped : c.typed with
      | false => simpa [Settled, Count.strike, backspace?, htyped] using h htyped
      | true => simp [Settled, Count.strike, backspace?, htyped]

/-- Every count that keys leave is settled. -/
theorem settled_after (strokes : List Stroke) : (after strokes).Settled := by
  have hempty : empty.Settled := fun _ => rfl
  unfold after
  generalize empty = c at hempty
  induction strokes generalizing c with
  | nil => exact hempty
  | cons stroke strokes ih => exact ih _ (hempty.strike stroke)

/-- Taking a digit back divides by the base, also where there is none left. -/
theorem Settled.strike_backspace (h : c.Settled) :
    (c.strike .backspace).value = c.value / c.base ∧ (c.strike .backspace).base = c.base := by
  cases htyped : c.typed with
  | false => simp [Count.strike, backspace?, htyped, h htyped]
  | true => simp [Count.strike, backspace?, htyped, base]

/-- Taking digits back divides by a power of the base. -/
theorem Settled.foldl_backspace (h : c.Settled) (k : Nat) :
    ((List.replicate k .backspace).foldl Count.strike c).value = c.value / c.base ^ k := by
  induction k generalizing c with
  | zero => simp
  | succ k ih =>
      obtain ⟨hvalue, hbase⟩ := h.strike_backspace
      rw [List.replicate_succ, List.foldl_cons, ih (h.strike _), hvalue, hbase,
        Nat.div_div_eq_div_mul, Nat.pow_succ']

/-! ## Typing a number -/

/-- Where codes are all accepted, their keys leave the same count. -/
theorem foldl_strike_of_foldlM {codes : List Int} {next : Count}
    (h : codes.foldlM digit? c = some next) : (codes.map .digit).foldl strike c = next := by
  induction codes generalizing c with
  | nil => exact Option.some.inj h
  | cons code codes ih =>
      obtain ⟨d, hd, hrest⟩ := Option.bind_eq_some_iff.1 h
      have hstrike : c.strike (.digit code) = d := by rw [strike, hd, Option.getD_some]
      rw [List.map_cons, List.foldl_cons, hstrike]
      exact ih hrest

/-- The keys of a number leave the count that its digits leave. -/
theorem after_numberStrokes (hdigits : ∀ d ∈ digits, d < baseOf hex) :
    after (numberStrokes hex digits) = entered hex digits := by
  have hbase : (if hex then [Stroke.toggle] else []).foldl strike empty = ⟨0, false, hex⟩ := by
    cases hex <;> rfl
  have htyped : (digits.map digitCode).foldlM digit? ⟨0, false, hex⟩ =
      some (entered hex digits) := by
    rw [List.foldlM_map]
    exact foldlM_digit? hdigits
  rw [after, numberStrokes, List.foldl_append, hbase, ← foldl_strike_of_foldlM htyped, List.map_map]
  rfl

/-- A number with any digits is typed, in decimal or behind the key that changes the base, when
nothing has been typed before.  The count is typed and is that number, or the largest offset if the
number does not fit.

Then any number of digits is taken back.  What is left of a number that fits is its quotient by that
power of the base.  In the whole run no operation wraps. -/
theorem typing_saturates (hsome : digits ≠ []) (hdigits : ∀ d ∈ digits, d < baseOf hex) :
    (after (numberStrokes hex digits)).value = min (numeral (baseOf hex) digits) lastOffset ∧
      (after (numberStrokes hex digits)).typed = true ∧
      (numeral (baseOf hex) digits < offsetCount → ∀ k,
        (after (numberStrokes hex digits ++ List.replicate k .backspace)).value =
          numeral (baseOf hex) digits / baseOf hex ^ k) ∧
      ∀ k, afterChecked? (numberStrokes hex digits ++ List.replicate k .backspace) =
        some (after (numberStrokes hex digits ++ List.replicate k .backspace)) := by
  have hentered := after_numberStrokes hdigits
  refine ⟨?_, ?_, fun hfits k => ?_, fun k => afterChecked?_eq _⟩
  · rw [hentered, entered]
  · simpa [hentered, entered] using hsome
  · have hnumber : numeral (baseOf hex) digits ≤ lastOffset := Nat.le_pred_of_lt hfits
    have hback := (settled_after (numberStrokes hex digits)).foldl_backspace k
    rw [after, List.foldl_append, ← after, hback, hentered, base_eq, entered,
      Nat.min_eq_left hnumber]

/-- The largest number that fits is typed in hexadecimal, and all digits but one are taken back.
Twenty nines are too many. -/
theorem typing_saturates_last :
    (after (numberStrokes true (List.replicate 16 15))).value = lastOffset ∧
      (after (numberStrokes true (List.replicate 16 15) ++ List.replicate 15 .backspace)).value = 15 ∧
      (after (numberStrokes false (List.replicate 20 9))).value = lastOffset := by
  have hletters : ∀ d ∈ List.replicate 16 15, d < baseOf true := by decide
  have hnines : ∀ d ∈ List.replicate 20 9, d < baseOf false := by decide
  have hnumber : numeral (baseOf true) (List.replicate 16 15) = lastOffset := by decide
  obtain ⟨hlast, -, hback, -⟩ := typing_saturates (by decide) hletters
  rw [hnumber] at hlast hback
  exact ⟨hlast.trans (Nat.min_self _), (hback (by decide) 15).trans (by decide),
    (typing_saturates (by decide) hnines).1.trans (by decide)⟩

end Count

end HexEditor
