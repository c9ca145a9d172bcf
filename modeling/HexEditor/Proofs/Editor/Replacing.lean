import HexEditor.Proofs.Edit.Overwriting
import HexEditor.Proofs.Editor.Grouping
import HexEditor.Proofs.Editor.Spelling
import HexEditor.Proofs.Session.Stored

/-!
# Replacing bytes

While bytes are replaced, every byte that is typed takes the place of all bytes below the
selections, so the last one is left.  The selections stay where they are, and the bytes that are not
selected stay too.

Every byte that is typed makes a version, even if it replaces bytes by themselves, unless no
selection covers a byte.  All that is typed until commands are read again is one change, so there is
one more to undo if some byte is covered, and otherwise there is none.

Main results:

- Definition `Session.Replaced`: what has become of a session, and theorem `Session.Replaced.trans`.
- Theorem `Editor.exists_overwriteWith`: one byte, and theorem `Editor.Spells.exists_replaced`: all
  bytes that are typed.
- Theorem `Editor.Reachable.exists_files`: every version that can come up is on record.
- Theorem `Editor.replacing_fills_selections`: all keys, from the command to the escape key and the
  undoing.
-/

namespace HexEditor

/-! ## Sessions -/

namespace Session

variable {s t u : Session} {version version' : Nat} {byte byte' : UInt8}

/-- A byte of the session's version is selected. -/
def CoversByte (s : Session) : Prop :=
  ∃ k < s.buffer.length, Covered s.selections.selections k

/-- The second session has come out of the first one by replacing all selected bytes, the last time
by the given one.  The versions made on the way were completed under the given number or later. -/
structure Replaced (s : Session) (version : Nat) (byte : UInt8) (t : Session) : Prop where
  /-- The new version is sound. -/
  sound : t.buffer.Sound
  /-- It is complete. -/
  complete : t.buffer.sameVersion t.buffer = true
  /-- The selected bytes are the given one. -/
  toBytes : t.buffer.toBytes = overlay s.selections.selections byte 0 s.buffer.toBytes
  /-- The selections are those from before. -/
  selections : t.selections = s.selections
  /-- The history is the one from before. -/
  history : t.history = s.history
  /-- If there was a byte to replace, the version is a new one. -/
  since : s.CoversByte → t.buffer.Since version
  /-- Otherwise it is the old one. -/
  buffer : ¬ s.CoversByte → t.buffer = s.buffer

theorem Replaced.length_eq (h : s.Replaced version byte t) (hsound : s.buffer.Sound) :
    t.buffer.length = s.buffer.length := by
  rw [h.sound.length_eq, h.toBytes, length_overlay, hsound.length_eq]

theorem Replaced.coversByte_iff (h : s.Replaced version byte t) (hsound : s.buffer.Sound) :
    t.CoversByte ↔ s.CoversByte := by
  rw [CoversByte, CoversByte, h.length_eq hsound, h.selections]

/-- Replacing once more leaves what the last time has put in. -/
theorem Replaced.trans (h : s.Replaced version byte t) (h' : t.Replaced version' byte' u)
    (hsound : s.buffer.Sound) (hle : version ≤ version') : s.Replaced version byte' u where
  sound := h'.sound
  complete := h'.complete
  toBytes := by rw [h'.toBytes, h.selections, h.toBytes, overlay_overlay]
  selections := h'.selections.trans h.selections
  history := h'.history.trans h.history
  since := fun hcovers => (h'.since ((h.coversByte_iff hsound).2 hcovers)).mono hle
  buffer := fun hnone =>
    (h'.buffer (mt (h.coversByte_iff hsound).1 hnone)).trans (h.buffer hnone)

end Session

namespace Editor

variable {ed : Editor} {s : Session} {encoding : Encoding} {bytes : Bytes} {byte : UInt8}
  {keys : List Key}

/-! ## The keys -/

/-- The command that begins to replace bytes. -/
def replaceKey : Encoding → Char
  | .ascii => 'r'
  | .hex => 'R'

/-- The command is no digit of a count, whatever its base. -/
theorem digit?_replaceKey (encoding : Encoding) (count : Count) :
    count.digit? (code (replaceKey encoding)) = none := by
  cases encoding <;> simp [Count.digit?, Count.digitValue?, replaceKey, code]

theorem replaceKey_mem_entryKeys (encoding : Encoding) : replaceKey encoding ∈ entryKeys := by
  cases encoding <;> simp [replaceKey, entryKeys]

/-- Where commands are read, the command begins to replace bytes, in a group that is opened on the
session as it is. -/
theorem exists_press_replaceKey (hquit : ed.quit = false) (hmode : ed.mode = .normal)
    (hs : ed.workspace.current? = some s) (encoding : Encoding) :
    ∃ begun, ed.press (.plain (code (replaceKey encoding))) = .ok begun ∧
      begun.mode = .replace encoding none ∧ begun.quit = false ∧ begun.count = .empty ∧
      begun.workspace.current = ed.workspace.current ∧
      begun.workspace.nextVersion = ed.workspace.nextVersion ∧
      begun.workspace.current? = some s.beginGroup := by
  have hentry := replaceKey_mem_entryKeys encoding
  have hpress := press_plain_eq_command hquit hmode hs
    (countKey?_of_mem_entryKeys hentry (digit?_replaceKey encoding ed.count))
    (letterMovement?_of_mem_entryKeys hentry _)
  refine ⟨{ ed with count := .empty, notice := .blank }.beginReplace encoding, ?_, rfl, hquit, rfl,
    rfl, rfl, Workspace.current?_modifyCurrent hs _⟩
  rw [hpress]
  cases encoding <;> rfl

theorem press_plain_eq_pressReplace {half : Option UInt8} (hquit : ed.quit = false)
    (hs : ed.workspace.current? = some s) (hmode : ed.mode = .replace encoding half) (c : Int) :
    ed.press (.plain c) = ed.pressReplace s encoding half (.plain c) := by
  simp only [press, hquit, Bool.false_eq_true, if_false, hs, hmode]

/-- The second digit completes the byte. -/
theorem press_lower_replace {d : Int} {digit : Nat} {half : UInt8} (hquit : ed.quit = false)
    (hs : ed.workspace.current? = some s) (hmode : ed.mode = .replace .hex (some half))
    (hdigit : hexDigitOfCode? d = some digit) :
    ed.press (.plain d) =
      (ed.enter (.replace .hex none)).overwriteWith s (completeByte half digit) := by
  rw [press_plain_eq_pressReplace hquit hs hmode]
  simp [pressReplace, Key.plain, hdigit]

/-- While bytes are replaced and no digit waits, the keys that type a byte put it in place of all
selected ones. -/
theorem foldlM_press_spellsByte_replace (hquit : ed.quit = false)
    (hs : ed.workspace.current? = some s) (hmode : ed.mode = .replace encoding none)
    (hkeys : SpellsByte encoding byte keys) :
    keys.foldlM press ed = ed.overwriteWith s byte := by
  cases encoding with
  | ascii =>
      obtain ⟨c, rfl, rfl⟩ := hkeys
      rw [List.foldlM_cons, press_plain_eq_pressReplace hquit hs hmode]
      exact bind_pure _
  | hex =>
      obtain ⟨c, d, rfl, hupper, hlower⟩ := hkeys
      have hfirst : ed.press (.plain c) =
          .ok (ed.enter (.replace .hex (some (upperHalf (byte.toNat / 16))))) := by
        rw [press_plain_eq_pressReplace hquit hs hmode]
        simp [pressReplace, Key.plain, hupper]
      have hsecond : (ed.enter (.replace .hex (some (upperHalf (byte.toNat / 16))))).press
          (.plain d) = ed.overwriteWith s byte := by
        refine Eq.trans (press_lower_replace hquit hs rfl hlower) ?_
        rw [completeByte_upperHalf]
        change (ed.enter (.replace .hex none)).overwriteWith s byte = _
        rw [← hmode]
        rfl
      rw [List.foldlM_cons, hfirst]
      change (ed.enter _).press (.plain d) >>= pure = _
      rw [hsecond]
      exact bind_pure _

/-! ## Typing -/

/-- Replacing all selected bytes by one. -/
theorem exists_overwriteWith {before : Snapshot} (hs : ed.workspace.current? = some s)
    (hvalid : s.snapshot.Valid) (hlength : s.buffer.length < lastOffset)
    (hcomplete : s.buffer.sameVersion s.buffer = true)
    (hopened : s.history.opened = some before) (byte : UInt8) :
    ∃ w t, ed.overwriteWith s byte = .ok { ed with workspace := w } ∧
      w.current = ed.workspace.current ∧ ed.workspace.nextVersion ≤ w.nextVersion ∧
      w.current? = some t ∧ s.Replaced ed.workspace.nextVersion byte t := by
  obtain ⟨e, he, hsound, hbytes, hselections, hmade, hsame⟩ :=
    hvalid.sound.exists_overwrite_eq hvalid.selections hlength byte
  refine ⟨ed.workspace.applyEdit s.snapshot e, _, ?_, rfl, Nat.le_succ _,
    Workspace.current?_modifyCurrent hs _, ?_⟩
  · rw [overwriteWith]
    change s.buffer.overwrite s.selections byte = .ok e at he
    rw [he]
    rfl
  · have hbuffer := s.buffer_apply s.snapshot
      { e with buffer := e.buffer.complete ed.workspace.nextVersion }
    constructor
    · rw [hbuffer]
      exact hsound.complete _
    · rw [hbuffer]
      exact Rope.sameVersion_complete _ _
    · rw [hbuffer, Rope.toBytes_complete, hbytes]
      rfl
    · rw [Session.selections_apply, hselections]
      rfl
    · exact Session.history_apply hopened _ _
    · intro hcovers
      rw [hbuffer]
      exact (hmade hcovers).complete _
    · intro hnone
      rw [hbuffer, hsame hnone]
      exact Rope.complete_of_sameVersion hcomplete _

/-- Typing bytes while bytes are replaced puts the last of them in place of all selected ones. -/
theorem Spells.exists_replaced {before : Snapshot} (hkeys : Spells encoding bytes keys)
    (hbytes : bytes ≠ []) (hquit : ed.quit = false) (hmode : ed.mode = .replace encoding none)
    (hs : ed.workspace.current? = some s) (hvalid : s.snapshot.Valid)
    (hlength : s.buffer.length < lastOffset) (hcomplete : s.buffer.sameVersion s.buffer = true)
    (hopened : s.history.opened = some before) :
    ∃ w t, keys.foldlM press ed = .ok { ed with workspace := w } ∧
      w.current = ed.workspace.current ∧ w.current? = some t ∧
      s.Replaced ed.workspace.nextVersion (bytes.getLast hbytes) t := by
  induction hkeys generalizing ed s with
  | nil => exact absurd rfl hbytes
  | @cons byte bytes first keys hfirst hrest ih =>
      obtain ⟨w, t, hrun, hcurrent, hversion, ht, hreplaced⟩ :=
        exists_overwriteWith hs hvalid hlength hcomplete hopened byte
      rw [List.foldlM_append, foldlM_press_spellsByte_replace hquit hs hmode hfirst, hrun]
      change ∃ v u, keys.foldlM press { ed with workspace := w } = _ ∧ _
      by_cases hnone : bytes = []
      · subst hnone
        cases hrest
        exact ⟨w, t, rfl, hcurrent, ht, hreplaced⟩
      · have hselections : t.snapshot.Valid :=
          ⟨hreplaced.sound, by
            change t.selections.Valid t.buffer.length
            rw [hreplaced.selections, hreplaced.length_eq hvalid.sound]
            exact hvalid.selections⟩
        obtain ⟨v, u, hrun', hcurrent', hu, hreplaced'⟩ :=
          @ih { ed with workspace := w } t hnone hquit hmode ht hselections
            (by rw [hreplaced.length_eq hvalid.sound]; exact hlength) hreplaced.complete
            (by rw [hreplaced.history, hopened])
        refine ⟨v, u, hrun', hcurrent'.trans hcurrent, hu, ?_⟩
        rw [List.getLast_cons hnone]
        exact hreplaced.trans hreplaced' hvalid.sound hversion

/-! ## All keys -/

/-- Every version that can come up is complete, and there is a record of what its marks stand for
that gives none of them out again. -/
theorem Reachable.exists_files (h : ed.Reachable) (hs : s ∈ ed.workspace.sessions) :
    ∃ content, s.buffer.Filed content ed.workspace.nextVersion ∧
      s.buffer.sameVersion s.buffer = true := by
  obtain ⟨stored, hrun⟩ := h.moves.exists_run
  obtain ⟨content, hfiled⟩ := hrun.filed
  exact ⟨content, (hfiled s hs).buffer⟩

/-- The escape key ends the typing and closes the group. -/
theorem exists_press_escape_replace (ed : Editor) {half : Option UInt8} (hquit : ed.quit = false)
    (hs : ed.workspace.current? = some s) (hmode : ed.mode = .replace encoding half) :
    ∃ ended, ed.press .escape = .ok ended ∧ ended.mode = .normal ∧ ended.quit = false ∧
      ended.count = ed.count ∧ ended.workspace.current = ed.workspace.current ∧
      ended.workspace.current? = some s.commitGroup := by
  refine ⟨ed.endEditing, ?_, rfl, hquit, rfl, rfl, Workspace.current?_modifyCurrent hs _⟩
  simp only [press, hquit, Bool.false_eq_true, if_false, hs, hmode, pressReplace]

/-- Replacing all selected bytes.

The command is pressed where commands are read, in a state that can come up.  Then at least one byte
is typed, in the encoding of the command, and the escape key is pressed.  This leads to a version of
the same length, which holds the last byte that was typed at every offset that is selected and the
old byte at every other one; the selections and the main one among them stay.

If a byte is selected, there is one change more to undo, and undoing it gives back the very version
and the selections from before.  Otherwise there is none. -/
theorem replacing_fills_selections (h : ed.Reachable) (hmode : ed.mode = .normal)
    (hquit : ed.quit = false) (hs : ed.workspace.current? = some s)
    (hlength : s.buffer.length < lastOffset) (hbytes : bytes ≠ [])
    (hkeys : Spells encoding bytes keys) :
    ∃ ended t, (Key.plain (code (replaceKey encoding)) :: (keys ++ [.escape])).foldlM press ed =
        .ok ended ∧
      ended.mode = .normal ∧ ended.workspace.current = ed.workspace.current ∧
      ended.workspace.current? = some t ∧ t.buffer.length = s.buffer.length ∧
      (∀ k < s.buffer.length, t.buffer.toBytes[k]? =
        if Covered s.selections.selections k then some (bytes.getLast hbytes)
        else s.buffer.toBytes[k]?) ∧
      t.selections = s.selections ∧
      (s.CoversByte → t.history.depth = s.history.depth + 1 ∧
        ∃ undone u, ended.press (.plain (code 'u')) = .ok undone ∧
          undone.workspace.current = ed.workspace.current ∧
          undone.workspace.current? = some u ∧ u.buffer = s.buffer ∧
          u.selections = s.selections ∧ u.history.depth = s.history.depth) ∧
      (¬ s.CoversByte → t.history.depth = s.history.depth) := by
  have hvalid := h.valid s (Workspace.mem_of_current? hs)
  obtain ⟨content, hfiled, hcomplete⟩ := h.exists_files (Workspace.mem_of_current? hs)
  have hgrouped := h.grouped
  rw [hmode] at hgrouped
  have hbegun := Session.opened_beginGroup (hgrouped.opened_eq_none hs)
  have hopened : s.beginGroup.history.opened = some s.snapshot := by rw [hbegun]
  obtain ⟨begun, hpress, hmode', hquit', hcount, hcurrent, hversion, hs'⟩ :=
    exists_press_replaceKey hquit hmode hs encoding
  obtain ⟨w, t, hrun, hcurrent', ht, hreplaced⟩ :=
    hkeys.exists_replaced hbytes hquit' hmode' hs' hvalid.snapshot hlength hcomplete hopened
  rw [hversion] at hreplaced
  have hsound : s.buffer.Sound := hvalid.snapshot.sound
  have hgroup : t.history.opened = some s.snapshot := by rw [hreplaced.history, hopened]
  have hdone : t.history.done = s.history.done := by rw [hreplaced.history, hbegun]
  obtain ⟨ended, hescape, hnormal, hquit'', hcount', hcurrent'', hended⟩ :=
    exists_press_escape_replace { begun with workspace := w } hquit' ht hmode'
  have hback := hcurrent''.trans (hcurrent'.trans hcurrent)
  refine ⟨ended, t.commitGroup, ?_, hnormal, hback, hended, hreplaced.length_eq hsound, ?_,
    hreplaced.selections, ?_, ?_⟩
  · rw [List.foldlM_cons, hpress]
    change (keys ++ [Key.escape]).foldlM press begun = _
    rw [List.foldlM_append, hrun]
    exact (bind_pure _).trans hescape
  · intro k hk
    rw [hsound.length_eq] at hk
    change t.buffer.toBytes[k]? = _
    rw [hreplaced.toBytes]
    exact getElem?_overlay _ _ hk
  · intro hcovers
    have hother : s.buffer.sameVersion t.buffer = false :=
      hfiled.sameVersion_eq_false (hreplaced.since hcovers)
    have hlatest : t.commitGroup.history.done = ⟨s.snapshot, t.snapshot⟩ :: s.history.done := by
      simp [Session.commitGroup, History.commitGroup, hgroup, Session.snapshot, hother, hdone]
    obtain ⟨undone, u, hundone, hkept, hu, hbuffer, hselections, hearlier⟩ :=
      press_undo_of_done hquit'' hnormal (hcount'.trans hcount) hended hlatest
    refine ⟨?_, undone, u, hundone, hkept.trans hback, hu, hbuffer, ?_, ?_⟩
    · rw [History.depth, hlatest, List.length_cons, History.depth]
    · rw [hselections]
      exact hvalid.snapshot.selections.clamped_eq
    · rw [History.depth, hearlier, History.depth]
  · intro hnone
    have hsame : s.buffer.sameVersion t.buffer = true := by
      rw [hreplaced.buffer hnone]
      exact hcomplete
    simp [Session.commitGroup, History.commitGroup, hgroup, Session.snapshot, hsame, History.depth,
      hdone]

/-- Two letters are typed over the first byte of two; the second of them is left.  Undoing takes
both back. -/
theorem replacing_fills_selections_pair :
    ∃ ended t undone u, [Key.plain (code 'r'), .plain (code 'J'), .plain (code 'K'),
        .escape].foldlM press (start ⟨[pairSession], 0, 1⟩ pairDisk) = .ok ended ∧
      ended.workspace.current? = some t ∧ t.buffer.toBytes[0]? = some 75 ∧
      t.buffer.toBytes[1]? = some 2 ∧ t.history.depth = 1 ∧
      ended.press (.plain (code 'u')) = .ok undone ∧ undone.workspace.current? = some u ∧
      u.buffer = pairSession.buffer := by
  have hkeys : Spells .ascii [74, 75] ([.plain (code 'J')] ++ ([.plain (code 'K')] ++ [])) :=
    .cons ⟨code 'J', rfl, rfl⟩ (.cons ⟨code 'K', rfl, rfl⟩ .nil)
  have hcovers : pairSession.CoversByte := ⟨0, by rw [length_pairSession]; decide, by decide⟩
  obtain ⟨ended, t, hrun, -, -, ht, -, hput, -, hchange, -⟩ :=
    replacing_fills_selections (.start opened_pair) rfl rfl (s := pairSession) rfl
      (by rw [length_pairSession]; decide) (by decide) hkeys
  obtain ⟨hdepth, undone, u, hundone, -, hu, hback, -, -⟩ := hchange hcovers
  have hfirst := hput 0 (by rw [length_pairSession]; decide)
  have hsecond := hput 1 (by rw [length_pairSession]; decide)
  rw [if_pos (by decide)] at hfirst
  rw [if_neg (by decide), toBytes_pairSession] at hsecond
  exact ⟨ended, t, undone, u, hrun, ht, hfirst, hsecond, hdepth, hundone, hu, hback⟩

end Editor

end HexEditor
