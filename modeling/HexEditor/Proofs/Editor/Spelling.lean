import HexEditor.Editor.Press
import HexEditor.Proofs.Edit.Insertion
import HexEditor.Proofs.Pattern.Notation
import HexEditor.Proofs.Session.Descent

/-!
# Typing bytes

While bytes are inserted, a byte is typed as one character or as two hexadecimal digits of
either case.  Typing the bytes of a string one after the other leads to the same bytes and
the same selections in both encodings, and they are those that inserting the whole string at
once leads to.

Main results:

- Definition `Editor.Spells`: the keys that type a byte string.
- Theorem `Editor.foldlM_press_spellsByte`: the keys that type a byte insert it.
- Theorem `Editor.typed_eq_inserted`: typing byte by byte inserts the whole string.
-/

namespace HexEditor

namespace Editor

variable {ed : Editor} {s : Session} {encoding : Encoding} {side : Side} {byte : UInt8}
  {bytes : Bytes} {keys : List Key}

/-! ## The keys that type bytes -/

/-- The keys type one byte. -/
def SpellsByte (encoding : Encoding) (byte : UInt8) (keys : List Key) : Prop :=
  match encoding with
  | .ascii => ∃ c, keys = [.plain c] ∧ Prompt.edit?.byteOfCode c = byte
  | .hex =>
    ∃ c d, keys = [.plain c, .plain d] ∧ hexDigitOfCode? c = some (byte.toNat / 16) ∧
      hexDigitOfCode? d = some (byte.toNat % 16)

/-- The keys type the bytes one after the other. -/
inductive Spells (encoding : Encoding) : Bytes → List Key → Prop where
  /-- Nothing is typed. -/
  | nil : Spells encoding [] []
  /-- A byte is typed, and then the others. -/
  | cons {byte : UInt8} {bytes : Bytes} {first keys : List Key}
      (spells : SpellsByte encoding byte first) (rest : Spells encoding bytes keys) :
      Spells encoding (byte :: bytes) (first ++ keys)

theorem hexDigitOfCode?_toNat (b : UInt8) : hexDigitOfCode? b.toNat = Text.hexDigit? b := by
  have hbyte := b.toNat_lt
  rw [hexDigitOfCode?, if_pos (by omega)]
  simp

/-- Every byte can be typed in either encoding. -/
theorem exists_spellsByte (encoding : Encoding) (byte : UInt8) :
    ∃ keys, SpellsByte encoding byte keys := by
  cases encoding with
  | ascii =>
      have hbyte := byte.toNat_lt
      refine ⟨_, byte.toNat, rfl, ?_⟩
      rw [Prompt.edit?.byteOfCode, Int.emod_eq_of_lt (by omega) (by omega)]
      simp
  | hex =>
      refine ⟨_, (Text.nibble (byte.toNat / 16)).toNat, (Text.nibble (byte.toNat % 16)).toNat,
        rfl, ?_, ?_⟩
      · exact (hexDigitOfCode?_toNat _).trans (Text.hexDigit?_byteDigits byte).1
      · exact (hexDigitOfCode?_toNat _).trans (Text.hexDigit?_byteDigits byte).2

/-- Every byte string can be typed in either encoding. -/
theorem exists_spells (encoding : Encoding) (bytes : Bytes) :
    ∃ keys, Spells encoding bytes keys := by
  induction bytes with
  | nil => exact ⟨[], .nil⟩
  | cons byte bytes ih =>
      rcases exists_spellsByte encoding byte with ⟨first, hfirst⟩
      rcases ih with ⟨keys, hkeys⟩
      exact ⟨first ++ keys, .cons hfirst hkeys⟩

/-! ## One byte -/

/-- A byte is completed from its two digits. -/
theorem completeByte_upperHalf (byte : UInt8) :
    completeByte (upperHalf (byte.toNat / 16)) (byte.toNat % 16) = byte := by
  have hbyte := byte.toNat_lt
  have hlower : byte.toNat % 16 < 2 ^ 4 := Nat.mod_lt _ (by decide)
  have hupper : 16 * (byte.toNat / 16) % 2 ^ 8 = 2 ^ 4 * (byte.toNat / 16) :=
    Nat.mod_eq_of_lt (by omega)
  rw [completeByte, upperHalf, ← UInt8.toNat_inj, UInt8.toNat_or]
  change 16 * (byte.toNat / 16) % 2 ^ 8 ||| byte.toNat % 16 % 2 ^ 8 = byte.toNat
  rw [hupper, Nat.mod_eq_of_lt (b := 2 ^ 8) (by omega), ← Nat.two_pow_add_eq_or_of_lt hlower]
  omega

theorem press_plain_eq_pressInsert {half : Option UInt8} (hquit : ed.quit = false)
    (hs : ed.workspace.current? = some s) (hmode : ed.mode = .insert encoding side half)
    (c : Int) : ed.press (.plain c) = ed.pressInsert s encoding side half (.plain c) := by
  simp only [press, hquit, Bool.false_eq_true, if_false, hs, hmode]

/-- The first digit of a byte waits. -/
theorem press_upper {c : Int} {digit : Nat} (hquit : ed.quit = false)
    (hs : ed.workspace.current? = some s) (hmode : ed.mode = .insert .hex side none)
    (hdigit : hexDigitOfCode? c = some digit) :
    ed.press (.plain c) = .ok (ed.enter (.insert .hex side (some (upperHalf digit)))) := by
  rw [press_plain_eq_pressInsert hquit hs hmode]
  simp only [pressInsert, Key.plain, hdigit]
  rfl

/-- The second digit completes the byte. -/
theorem press_lower {c : Int} {digit : Nat} {half : UInt8} (hquit : ed.quit = false)
    (hs : ed.workspace.current? = some s) (hmode : ed.mode = .insert .hex side (some half))
    (hdigit : hexDigitOfCode? c = some digit) :
    ed.press (.plain c) =
      (ed.enter (.insert .hex side none)).insertByte s side (completeByte half digit) := by
  rw [press_plain_eq_pressInsert hquit hs hmode]
  simp only [pressInsert, Key.plain, hdigit]
  rfl

/-- While bytes are inserted and no digit waits, the keys that type a byte insert it at every
selection. -/
theorem foldlM_press_spellsByte (hquit : ed.quit = false)
    (hs : ed.workspace.current? = some s) (hmode : ed.mode = .insert encoding side none)
    (hkeys : SpellsByte encoding byte keys) :
    keys.foldlM press ed = ed.insertByte s side byte := by
  cases encoding with
  | ascii =>
      rcases hkeys with ⟨c, rfl, rfl⟩
      rw [List.foldlM_cons, press_plain_eq_pressInsert hquit hs hmode]
      exact bind_pure _
  | hex =>
      rcases hkeys with ⟨c, d, rfl, hupper, hlower⟩
      have hsecond : (ed.enter (.insert .hex side (some (upperHalf (byte.toNat / 16))))).press
          (.plain d) = ed.insertByte s side byte := by
        refine Eq.trans (press_lower hquit hs rfl hlower) ?_
        rw [completeByte_upperHalf]
        change (ed.enter (.insert .hex side none)).insertByte s side byte = _
        rw [← hmode]
        rfl
      rw [List.foldlM_cons, press_upper hquit hs hmode hupper]
      change (ed.enter _).press (.plain d) >>= pure = _
      rw [hsecond]
      exact bind_pure _

/-- Inserting a byte changes the current session only, and its version is marked. -/
theorem exists_insertByte (hs : ed.workspace.current? = some s) {e : Edited}
    (he : s.buffer.insert s.selections [byte] side = .ok e) :
    ∃ ed' t, ed.insertByte s side byte = .ok ed' ∧ ed'.quit = ed.quit ∧ ed'.mode = ed.mode ∧
      ed'.workspace.current? = some t ∧
      t.buffer = e.buffer.complete ed.workspace.nextVersion ∧ t.selections = e.selections := by
  rw [insertByte, he]
  rcases Workspace.exists_current?_applyEdit hs s.snapshot e with ⟨t, ht, hbuffer, hselections⟩
  exact ⟨_, t, rfl, rfl, rfl, ht, hbuffer, hselections⟩

/-! ## All bytes -/

/-- Typing bytes while they are inserted leads to the bytes and the selections that inserting
them all at once leads to. -/
theorem Spells.exists_insert (hkeys : Spells encoding bytes keys) (hquit : ed.quit = false)
    (hs : ed.workspace.current? = some s) (hsound : s.buffer.Sound)
    (hvalid : s.selections.Valid s.buffer.length)
    (hroom : s.buffer.length + s.selections.size * bytes.length < lastOffset)
    (hmode : ed.mode = .insert encoding side none) :
    ∃ e ed' t, s.buffer.insert s.selections bytes side = .ok e ∧
      keys.foldlM press ed = .ok ed' ∧ ed'.mode = ed.mode ∧
      ed'.workspace.current? = some t ∧ t.buffer.toBytes = e.buffer.toBytes ∧
      t.selections = e.selections := by
  induction hkeys generalizing ed s with
  | nil =>
      rcases hsound.insert_nil hvalid hroom side with ⟨e, he, hbytes, hselections⟩
      exact ⟨e, ed, s, he, rfl, rfl, hs, hbytes.symm, hselections.symm⟩
  | @cons byte bytes first keys hfirst hrest ih =>
      have hroom' : s.buffer.length + s.selections.size * ([byte] ++ bytes).length < lastOffset :=
        hroom
      rw [List.length_append, Nat.mul_add] at hroom'
      rcases hsound.exists_insert_eq_patch hvalid [byte] (by omega) side with
        ⟨e, he, hsound', -, hselections, hlength, hvalid'⟩
      rcases exists_insertByte hs he with
        ⟨next, t, hnext, hquit', hmode', ht, hbuffer, hset⟩
      have hmarked : t.buffer.length = s.buffer.length + s.selections.size * [byte].length := by
        rw [hbuffer, Rope.length_complete, hlength]
      have hsize : t.selections.size = s.selections.size := by
        rw [hset, hselections, SelectionSet.size, LocalEdit.length_settle, List.length_map,
          SelectionSet.size]
      have htsound : t.buffer.Sound := by
        rw [hbuffer]
        exact hsound'.complete _
      have htvalid : t.selections.Valid t.buffer.length := by
        rw [hset, hmarked, ← hlength]
        exact hvalid'
      rcases ih (hquit'.trans hquit) ht htsound htvalid (by rw [hmarked, hsize]; omega)
        (hmode'.trans hmode) with ⟨f, ed', u, hf, hrun, hmode'', hu, hbytes, hselections'⟩
      rcases hsound.insert_append hvalid hroom he htsound
        (by rw [hbuffer, Rope.toBytes_complete]) with ⟨f', g, hf', hg, hgbytes, hgselections⟩
      rw [← hset, hf] at hf'
      cases hf'
      refine ⟨g, ed', u, hg, ?_, hmode''.trans hmode', hu, hbytes.trans hgbytes,
        hselections'.trans hgselections⟩
      rw [List.foldlM_append, foldlM_press_spellsByte hquit hs hmode hfirst, hnext]
      exact hrun

/-- Typing the bytes of a string one after the other leads to the very bytes and selections
that inserting the string at once leads to.  This holds in either encoding and of every state
in which bytes are inserted and no digit waits, whether they are inserted in front of the
selections or behind them. -/
theorem typed_eq_inserted (hsound : s.buffer.Sound)
    (hvalid : s.selections.Valid s.buffer.length) (side : Side) (bytes : Bytes)
    (hroom : s.buffer.length + s.selections.size * bytes.length < lastOffset) :
    ∃ e, s.buffer.insert s.selections bytes side = .ok e ∧
      ∀ ed encoding keys, ed.quit = false → ed.workspace.current? = some s →
        ed.mode = .insert encoding side none → Spells encoding bytes keys →
        ∃ ed' t, keys.foldlM press ed = .ok ed' ∧ ed'.mode = ed.mode ∧
          ed'.workspace.current? = some t ∧ t.buffer.toBytes = e.buffer.toBytes ∧
          t.selections = e.selections := by
  rcases hsound.exists_insert_eq_patch hvalid bytes hroom side with ⟨e, he, -⟩
  refine ⟨e, he, ?_⟩
  intro ed encoding keys hquit hs hmode hkeys
  rcases hkeys.exists_insert hquit hs hsound hvalid hroom hmode with
    ⟨f, ed', t, hf, hrun, hmode', ht, hbytes, hselections⟩
  rw [he] at hf
  cases hf
  exact ⟨ed', t, hrun, hmode', ht, hbytes, hselections⟩

/-- A session on two bytes, with a selection at the last of them and one behind it. -/
def crowdedSession : Session :=
  { Session.scratch with buffer := .ofBytes [1, 2], selections := ⟨[.point 1, .point 2], 0⟩ }

/-- The letter is appended behind both selections at the end of the file, whether it is typed
as a character or as two digits. -/
theorem typed_eq_inserted_crowded :
    ∃ e a h, crowdedSession.buffer.insert crowdedSession.selections [74] .after = .ok e ∧
      [Key.plain (code 'J')].foldlM press
        ((start ⟨[crowdedSession], 0, 1⟩ .blank).enter (.insert .ascii .after none)) = .ok a ∧
      [Key.plain (code '4'), .plain (code 'A')].foldlM press
        ((start ⟨[crowdedSession], 0, 1⟩ .blank).enter (.insert .hex .after none)) = .ok h ∧
      (∃ t, a.workspace.current? = some t ∧ t.buffer.toBytes = e.buffer.toBytes ∧
        t.selections = e.selections) ∧
      ∃ t, h.workspace.current? = some t ∧ t.buffer.toBytes = e.buffer.toBytes ∧
        t.selections = e.selections := by
  have hlength : crowdedSession.buffer.length = 2 := by
    change (Rope.ofBytes [1, 2]).length = 2
    rw [(Rope.sound_ofBytes [1, 2]).length_eq, Rope.toBytes_ofBytes]
    rfl
  have hvalid : crowdedSession.selections.Valid crowdedSession.buffer.length := by
    rw [hlength]
    exact ⟨by decide, by decide, by decide⟩
  have hroom : crowdedSession.buffer.length +
      crowdedSession.selections.size * [(74 : UInt8)].length < lastOffset := by
    rw [hlength]
    decide
  rcases typed_eq_inserted (Rope.sound_ofBytes [1, 2]) hvalid .after [74] hroom with
    ⟨e, he, htyped⟩
  have hcharacter : SpellsByte .ascii 74 [Key.plain (code 'J')] := ⟨code 'J', rfl, rfl⟩
  have hdigits : SpellsByte .hex 74 [Key.plain (code '4'), .plain (code 'A')] :=
    ⟨code '4', code 'A', rfl, by decide, by decide⟩
  rcases htyped ((start ⟨[crowdedSession], 0, 1⟩ .blank).enter (.insert .ascii .after none))
    .ascii _ rfl rfl rfl (.cons hcharacter .nil) with ⟨a, t, ha, -, ht⟩
  rcases htyped ((start ⟨[crowdedSession], 0, 1⟩ .blank).enter (.insert .hex .after none))
    .hex _ rfl rfl rfl (.cons hdigits .nil) with ⟨h, u, hh, -, hu⟩
  exact ⟨e, a, h, he, ha, hh, ⟨t, ht⟩, u, hu⟩

end Editor

end HexEditor
