import HexEditor.Command.Line
import HexEditor.Proofs.Pattern.Grammar
import Mathlib.Data.List.TakeWhile

/-!
# The words of a command line

A command line is read as a row of words.  Where its blanks lie, and how many of them, decides
nothing but the words.  The name of a command is the first word and the arguments are the others,
except that a setting takes its option into the name.  The value of a setting can be given behind an
equals sign or as a word of its own, with the same result.

Main results:

- Definition `Text.Spaced`: a line that consists of words and blanks.
- Theorem `Text.words_eq_iff`: the words of a line are the only ones that it consists of.
- Theorems `CommandLine.ofSetting_equals` and `CommandLine.ofSetting_apart`: the two ways to give a
  value.
- Theorem `CommandLine.parse_reads_words`: what a line is read as.
-/

namespace HexEditor

namespace Text

/-! ## Words and blanks -/

/-- The text has no byte but blanks. -/
def IsGap (gap : Text) : Prop := ∀ b ∈ gap, b ∈ blanks

/-- The text is not empty and has no blank. -/
structure IsWord (word : Text) : Prop where
  /-- There is a byte. -/
  ne_nil : word ≠ []
  /-- No byte is a blank. -/
  noBlank : ∀ b ∈ word, b ∉ blanks

/-- The line consists of the words in order and of blanks.  A word ends at a blank or at the end of
the line. -/
inductive Spaced : List Text → Text → Prop where
  | blank {gap : Text} : IsGap gap → Spaced [] gap
  | word {gap word line : Text} {words : List Text} : IsGap gap → IsWord word →
    (∀ b ∈ line.head?, b ∈ blanks) → Spaced words line → Spaced (word :: words) (gap ++ word ++ line)

section Words

variable {gap word begun line : Text} {words : List Text}

theorem isGap_singleton {b : UInt8} (h : isBlank b = true) : IsGap [b] := by
  intro c hc
  rw [List.mem_singleton.1 hc]
  exact (isBlank_iff b).1 h

/-- Blanks in front of the first word are passed over. -/
theorem wordsAfter_gap (h : IsGap gap) (line : Text) :
    wordsAfter [] (gap ++ line) = wordsAfter [] line := by
  induction gap with
  | nil => rfl
  | cons b gap ih =>
      rw [List.cons_append, wordsAfter, if_pos ((isBlank_iff b).2 (h b List.mem_cons_self))]
      exact ih fun c hc => h c (List.mem_cons_of_mem _ hc)

/-- Bytes that are no blanks belong to the word that has begun. -/
theorem wordsAfter_append (h : ∀ b ∈ word, b ∉ blanks) (begun line : Text) :
    wordsAfter begun (word ++ line) = wordsAfter (word.reverse ++ begun) line := by
  induction word generalizing begun with
  | nil => rfl
  | cons b word ih =>
      rw [List.cons_append, wordsAfter,
        if_neg (mt (isBlank_iff b).1 (h b List.mem_cons_self)),
        ih fun c hc => h c (List.mem_cons_of_mem _ hc), List.reverse_cons, List.append_assoc]
      rfl

/-- A word that has begun ends at a blank or at the end of the line. -/
theorem wordsAfter_of_head? (hbegun : begun ≠ []) (hline : ∀ b ∈ line.head?, b ∈ blanks) :
    wordsAfter begun line = begun.reverse :: wordsAfter [] line := by
  have hsome : ¬ begun.isEmpty = true := by rwa [List.isEmpty_iff]
  cases line with
  | nil =>
      rw [wordsAfter, if_neg hsome]
      rfl
  | cons b line =>
      have hblank := (isBlank_iff b).2 (hline b rfl)
      rw [wordsAfter, if_pos hblank, if_neg hsome, wordsAfter, if_pos hblank]
      rfl

/-- The words that a line consists of are the words that are found in it. -/
theorem Spaced.words_eq (h : Spaced words line) : Text.words line = words := by
  induction h with
  | blank hgap =>
      have hread := wordsAfter_gap hgap []
      rw [List.append_nil] at hread
      exact hread
  | word hgap hword hline _ ih =>
      rw [Text.words, List.append_assoc, wordsAfter_gap hgap, wordsAfter_append hword.noBlank,
        List.append_nil, wordsAfter_of_head? (mt List.reverse_eq_nil_iff.1 hword.ne_nil) hline,
        List.reverse_reverse]
      exact congrArg _ ih

/-- A line consists of the words that are found in it.  The induction carries the blanks in front
and the word that has begun. -/
theorem spaced_wordsAfter (hgap : IsGap gap) (hbegun : ∀ b ∈ begun, b ∉ blanks) (line : Text) :
    Spaced (wordsAfter begun line) (gap ++ begun.reverse ++ line) := by
  have hword : ∀ begun : Text, (∀ b ∈ begun, b ∉ blanks) → ¬ begun.isEmpty = true →
      IsWord begun.reverse := fun begun hbegun hnone =>
    ⟨mt List.reverse_eq_nil_iff.1 (mt List.isEmpty_iff.2 hnone),
      fun b hb => hbegun b (List.mem_reverse.1 hb)⟩
  induction line generalizing gap begun with
  | nil =>
      rw [wordsAfter]
      split_ifs with hnone
      · rw [List.isEmpty_iff.1 hnone, List.reverse_nil, List.append_nil, List.append_nil]
        exact .blank hgap
      · exact .word hgap (hword begun hbegun hnone) nofun (.blank nofun)
  | cons b line ih =>
      rw [wordsAfter]
      split_ifs with hblank hnone
      · have hgap' : IsGap (gap ++ [b]) := fun c hc =>
          (List.mem_append.1 hc).elim (hgap c) (isGap_singleton hblank c)
        have hrest := @ih _ [] hgap' nofun
        rw [List.isEmpty_iff.1 hnone]
        simpa using hrest
      · refine .word hgap (hword begun hbegun hnone) ?_ (@ih _ [] (isGap_singleton hblank) nofun)
        rintro c ⟨⟩
        exact (isBlank_iff b).1 hblank
      · have hplain : b ∉ blanks := mt (isBlank_iff b).2 hblank
        have hrest := @ih _ (b :: begun) hgap (List.forall_mem_cons.2 ⟨hplain, hbegun⟩)
        simpa using hrest

/-- The words of a line are the only ones that it consists of. -/
theorem words_eq_iff : Text.words line = words ↔ Spaced words line := by
  constructor
  · rintro rfl
    exact @spaced_wordsAfter [] [] nofun nofun line
  · exact Spaced.words_eq

instance : Decidable (Spaced words line) :=
  decidable_of_iff _ words_eq_iff

/-- A line consists of nothing but words. -/
theorem Spaced.isWord (h : Spaced words line) : ∀ word ∈ words, IsWord word := by
  induction h with
  | blank => nofun
  | word _ hword _ _ ih => exact List.forall_mem_cons.2 ⟨hword, ih⟩

/-- Any words can be written on a line, with a space in front of each of them. -/
theorem spaced_flatMap (h : ∀ word ∈ words, IsWord word) :
    Spaced words (words.flatMap fun word => 32 :: word) := by
  induction words with
  | nil => exact .blank nofun
  | cons word words ih =>
      rcases List.forall_mem_cons.1 h with ⟨hword, hwords⟩
      refine .word (isGap_singleton (by decide)) hword ?_ (ih hwords)
      cases words with
      | nil => nofun
      | cons next words =>
          rintro b ⟨⟩
          decide

end Words

end Text

namespace CommandLine

/-! ## Settings -/

section Setting

variable {option value : Text} {rest : List Text}

theorem ne_equals (h : 61 ∉ option) : ∀ b ∈ option, decide (b ≠ 61) = true := by
  intro b hb
  rw [decide_eq_true_eq]
  rintro rfl
  exact h hb

/-- A value behind an equals sign is the first argument, unless it is empty. -/
theorem ofSetting_equals (h : 61 ∉ option) (value : Text) (rest : List Text) :
    ofSetting (option ++ 61 :: value) rest =
      ⟨setWord ++ ascii " " ++ option, if value.isEmpty then rest else value :: rest⟩ := by
  rw [ofSetting, List.takeWhile_append_of_pos (ne_equals h),
    List.dropWhile_append_of_pos (ne_equals h), List.takeWhile_cons, List.dropWhile_cons]
  simp

/-- Without an equals sign, all arguments are words of their own. -/
theorem ofSetting_apart (h : 61 ∉ option) (rest : List Text) :
    ofSetting option rest = ⟨setWord ++ ascii " " ++ option, rest⟩ := by
  have hname : option.takeWhile (· ≠ 61) = option := List.takeWhile_eq_self_iff.2 (ne_equals h)
  have hvalue : option.dropWhile (· ≠ 61) = [] := List.dropWhile_eq_nil_iff.2 (ne_equals h)
  rw [ofSetting, hname, hvalue]
  rfl

end Setting

/-! ## Lines -/

theorem parse_eq_of_spaced {words : List Text} {line : Text} (h : Text.Spaced words line) :
    parse line = ofWords words := by
  rw [parse, h.words_eq]

/-- Every line consists of the words of just one row, and every row of words is on some line.  What
a line is read as depends on its words alone.  Without words it has no name.  The first word is the
name and the others are the arguments, unless the line is a setting.  A setting is read as the same
whether its value stands behind an equals sign or is a word of its own, and an equals sign without
a value might as well be missing. -/
theorem parse_reads_words :
    (∀ line, ∃! words, Text.Spaced words line) ∧
      (∀ words, (∃ line, Text.Spaced words line) ↔ ∀ word ∈ words, Text.IsWord word) ∧
      (∀ words line line', Text.Spaced words line → Text.Spaced words line' →
        parse line = parse line') ∧
      (∀ line, Text.Spaced [] line → parse line = ⟨[], []⟩) ∧
      (∀ name args line, Text.Spaced (name :: args) line → name ≠ setWord ∨ args = [] →
        parse line = ⟨name, args⟩) ∧
      (∀ option value rest joined apart, 61 ∉ option →
        Text.Spaced (setWord :: (option ++ 61 :: value) :: rest) joined →
        Text.Spaced (setWord :: option :: value :: rest) apart →
        parse joined = ⟨setWord ++ ascii " " ++ option, value :: rest⟩ ∧
          parse apart = ⟨setWord ++ ascii " " ++ option, value :: rest⟩) ∧
      ∀ option rest joined apart, 61 ∉ option →
        Text.Spaced (setWord :: (option ++ [61]) :: rest) joined →
        Text.Spaced (setWord :: option :: rest) apart →
        parse joined = ⟨setWord ++ ascii " " ++ option, rest⟩ ∧
          parse apart = ⟨setWord ++ ascii " " ++ option, rest⟩ := by
  refine ⟨?_, ?_, ?_, ?_, ?_, ?_, ?_⟩
  · intro line
    exact ⟨Text.words line, Text.words_eq_iff.1 rfl, fun words hwords => hwords.words_eq.symm⟩
  · intro words
    exact ⟨fun ⟨line, hline⟩ => hline.isWord, fun hwords => ⟨_, Text.spaced_flatMap hwords⟩⟩
  · intro words line line' hline hline'
    rw [parse_eq_of_spaced hline, parse_eq_of_spaced hline']
  · intro line hline
    exact parse_eq_of_spaced hline
  · intro name args line hline hname
    rw [parse_eq_of_spaced hline]
    cases args with
    | nil => rfl
    | cons first rest => exact if_neg (hname.resolve_right nofun)
  · intro option value rest joined apart hequals hjoined hapart
    have hvalue : value ≠ [] := (hapart.isWord value (by simp)).ne_nil
    constructor
    · rw [parse_eq_of_spaced hjoined, ofWords, if_pos rfl, ofSetting_equals hequals,
        if_neg (by rwa [List.isEmpty_iff])]
    · rw [parse_eq_of_spaced hapart, ofWords, if_pos rfl, ofSetting_apart hequals]
  · intro option rest joined apart hequals hjoined hapart
    constructor
    · rw [parse_eq_of_spaced hjoined, ofWords, if_pos rfl, ofSetting_equals hequals]
      rfl
    · rw [parse_eq_of_spaced hapart, ofWords, if_pos rfl, ofSetting_apart hequals]

/-- The value begins with an equals sign of its own. -/
theorem parse_reads_words_value :
    parse (ascii "\tset  key==v  x\n") = ⟨ascii "set key", [ascii "=v", ascii "x"]⟩ ∧
      parse (ascii "set key =v x") = ⟨ascii "set key", [ascii "=v", ascii "x"]⟩ := by
  rcases parse_reads_words with ⟨-, -, -, -, -, hvalue, -⟩
  exact hvalue (ascii "key") (ascii "=v") [ascii "x"] _ _ (by decide) (by decide) (by decide)

end CommandLine

end HexEditor
