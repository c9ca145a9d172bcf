import HexEditor.Editor.Press
import HexEditor.Proofs.Pattern.Notation
import Mathlib.Logic.Function.Iterate

/-!
# Switching the encoding of a prompt

While a pattern is entered, one key switches between the encodings: the text is read in the
encoding so far and written in the other one.  The pattern that the text stands for stays
the same, however often the key is pressed.

Main results:

- Theorem `Editor.exists_press_toggle`: what one press of the key does.
- Theorem `Editor.toggling_keeps_pattern`: writing a pattern and reading it back gives the
  pattern, and any number of presses keeps the pattern that a text stands for.
-/

namespace HexEditor

namespace Editor

variable {ed : Editor} {encoding : Encoding} {purpose : Purpose} {prompt : Prompt}
  {pattern : Pattern} {key : Key} {keys : List Key}

/-- The key that switches the encoding writes the same pattern in the other one. -/
theorem pressPattern_toggle (s : Session)
    (htext : Pattern.parse encoding prompt.text = .ok pattern)
    (hkey : key.isCtrl (code 'o') = true) :
    ed.pressPattern s encoding purpose prompt key =
      ed.enter (.pattern encoding.toggle purpose
        ⟨Pattern.render encoding.toggle pattern,
          (Pattern.render encoding.toggle pattern).length⟩) := by
  cases key with
  | char c ctrl alt =>
      cases ctrl with
      | false => cases hkey
      | true =>
          have hcode : c = code 'o' := eq_of_beq hkey
          subst hcode
          have hwildcard : (Key.char (code 'o') true alt).isCtrl (code 'w') = false := rfl
          have hzero : (Key.char (code 'o') true alt).isCtrl (code 'n') = false := rfl
          rw [pressPattern, if_neg (by simp), if_neg (by simp), hwildcard, hzero, hkey, htext]
          rfl
  | _ => cases hkey

/-- One press of the key keeps the pattern.  It switches the encoding, unless the editor has
come to its end and does not react. -/
theorem exists_press_toggle (hmode : ed.mode = .pattern encoding purpose prompt)
    (htext : Pattern.parse encoding prompt.text = .ok pattern)
    (hkey : key.isCtrl (code 'o') = true) :
    ∃ encoding' prompt',
      ed.press key = .ok (ed.enter (.pattern encoding' purpose prompt')) ∧
      Pattern.parse encoding' prompt'.text = .ok pattern ∧
      (ed.quit = false → ed.workspace.current?.isSome = true → encoding' = encoding.toggle) := by
  have hsame : ed.enter (.pattern encoding purpose prompt) = ed := by
    rw [← hmode]
    rfl
  rw [press]
  split
  · rename_i hquit
    refine ⟨encoding, prompt, by rw [hsame], htext, fun hopen => ?_⟩
    rw [hopen] at hquit
    cases hquit
  · split
    · rename_i hnone
      refine ⟨encoding, prompt, by rw [hsame], htext, fun _ hsome => ?_⟩
      rw [hnone] at hsome
      cases hsome
    · rename_i s hs
      rw [hmode]
      dsimp only
      rw [pressPattern_toggle s htext hkey]
      exact ⟨_, _, rfl, Pattern.parse_render _ _, fun _ _ => rfl⟩

/-- A pattern that is written in an encoding is read back from it.  So while a text that
stands for a pattern is in the prompt, any number of presses of the key that switches the
encoding leaves a text that stands, in the encoding it has come to, for the same pattern. -/
theorem toggling_keeps_pattern :
    (∀ (encoding : Encoding) (pattern : Pattern),
      Pattern.parse encoding (Pattern.render encoding pattern) = .ok pattern) ∧
    ∀ (ed : Editor) (encoding : Encoding) (purpose : Purpose) (prompt : Prompt)
      (pattern : Pattern) (keys : List Key),
      ed.mode = .pattern encoding purpose prompt →
      Pattern.parse encoding prompt.text = .ok pattern →
      (∀ key ∈ keys, key.isCtrl (code 'o') = true) →
      ∃ encoding' prompt',
        keys.foldlM press ed = .ok (ed.enter (.pattern encoding' purpose prompt')) ∧
        Pattern.parse encoding' prompt'.text = .ok pattern ∧
        (ed.quit = false → ed.workspace.current?.isSome = true →
          encoding' = Encoding.toggle^[keys.length] encoding) := by
  refine ⟨Pattern.parse_render, ?_⟩
  intro ed encoding purpose prompt pattern keys hmode htext hkeys
  induction keys generalizing ed encoding prompt with
  | nil =>
      refine ⟨encoding, prompt, ?_, htext, fun _ _ => rfl⟩
      rw [← hmode]
      rfl
  | cons key keys ih =>
      rcases exists_press_toggle hmode htext (hkeys key List.mem_cons_self) with
        ⟨encoding₁, prompt₁, hpress, htext₁, htoggle⟩
      rcases ih (ed.enter (.pattern encoding₁ purpose prompt₁)) encoding₁ prompt₁ rfl htext₁
          fun key hkey => hkeys key (List.mem_cons_of_mem _ hkey) with
        ⟨encoding₂, prompt₂, hrest, htext₂, htoggles⟩
      refine ⟨encoding₂, prompt₂, ?_, htext₂, fun hquit hsome => ?_⟩
      · rw [List.foldlM_cons, hpress]
        exact hrest
      · rw [htoggles hquit hsome, htoggle hquit hsome]
        rfl

/-- A question mark and the letter of an escape, which stand beside a wildcard and a byte
that has to be escaped, are kept when the key is pressed three times. -/
theorem toggling_keeps_pattern_escapes :
    let text := ascii "?\\x00\\?x"
    let ed := (start .empty .blank).enter (.pattern .ascii .selectInBuffer ⟨text, text.length⟩)
    ∃ prompt,
      [Key.char (code 'o') true false, .char (code 'o') true true,
          .char (code 'o') true false].foldlM press ed =
        .ok (ed.enter (.pattern .hex .selectInBuffer prompt)) ∧
      Pattern.parse .hex prompt.text =
        .ok [.literal 63, .literal 0, .wildcard, .literal 120] := by
  intro text ed
  have htext : Pattern.parse .ascii text =
      .ok [.literal 63, .literal 0, .wildcard, .literal 120] := by
    have hletter : Pattern.parseAscii [120] = .ok [.literal 120] := rfl
    exact Pattern.parseAscii_plain (by decide)
      (Pattern.parseAscii_escape 0 (Pattern.parseAscii_wildcard hletter))
  rcases toggling_keeps_pattern.2 ed .ascii .selectInBuffer ⟨text, text.length⟩ _
      [.char (code 'o') true false, .char (code 'o') true true, .char (code 'o') true false]
      rfl htext (by decide) with
    ⟨encoding, prompt, hpressed, hparsed, hencoding⟩
  cases hencoding rfl rfl
  exact ⟨prompt, hpressed, hparsed⟩

end Editor

end HexEditor
