import HexEditor.Proofs.Edit.PasteSize
import HexEditor.Proofs.Editor.Grouping

/-!
# Deleting and pasting back

The command `d` copies the bytes below the selections and deletes them, and `P` pastes what
has been copied in front of the selections.  If no selection borders on the next one, the
second command takes back what the first one has done to the bytes, and it selects the same
bytes again.  A single paste is limited in what it may add, so the commands do this as long
as no more has been deleted.

Main results:

- Theorem `pasteSize?_isSome`: a paste within the limit is not refused.
- Theorems `Editor.exists_press_delete` and `Editor.exists_press_paste`: the two commands.
- Theorem `Editor.delete_then_paste_restores`: one after the other.
-/

namespace HexEditor

/-! ## The limit of a paste -/

/-- What is pasted once is not refused if it is within the limit. -/
theorem pasteSize?_isSome {set : SelectionSet} {entries : List Bytes}
    (hsize : entries.length = set.size) (hlimit : (entries.map List.length).sum ≤ pasteLimit) :
    (pasteSize? set entries 1).isSome = true := by
  have hshares : (List.range set.size).map (pasteShare entries 1) = entries.map List.length := by
    apply List.ext_getElem
    · simp [hsize]
    · intro i hi _
      have hlt : i < entries.length := by
        rw [List.length_map, List.length_range] at hi
        omega
      simp [pasteShare, Registers.entryFor_eq hlt]
  rw [pasteSize?_eq, pasteTotal, hshares, if_pos hlimit]
  rfl

theorem Registers.read_write (r : Registers) (name : UInt8) (entries : List Bytes) :
    (r.write name entries).read name = entries := by
  simp [Registers.read, Registers.write]

namespace Editor

variable {ed : Editor} {s : Session} {entries : List Bytes} {e : Edited}

/-! ## The two commands -/

/-- Deleting copies the bytes below the selections and installs the edit. -/
theorem exists_press_delete (hquit : ed.quit = false) (hmode : ed.mode = .normal)
    (hcount : ed.count = .empty) (hs : ed.workspace.current? = some s)
    (hyank : s.buffer.yank s.selections = .ok entries)
    (hdelete : s.buffer.delete s.selections = .ok e) :
    ∃ ed' t version, ed.press (.plain (code 'd')) = .ok ed' ∧ ed'.quit = false ∧
      ed'.mode = .normal ∧ ed'.count = .empty ∧
      ed'.registers.read Registers.defaultName = entries ∧
      ed'.workspace.current? = some t ∧ t.buffer = e.buffer.complete version ∧
      t.selections = e.selections := by
  have hkey : countKey? ed.count (.plain (code 'd')) = none := by
    rw [hcount]
    rfl
  have hcut : ∀ ed : Editor, ed.cut s = .ok { ed with
      registers := ed.registers.write Registers.defaultName entries
      workspace := ed.workspace.applyEdit s.snapshot e } := by
    intro ed
    simp only [cut, copy, hyank, hdelete]
    rfl
  rcases Workspace.exists_current?_applyEdit hs s.snapshot e with ⟨t, ht, hbuffer, hselections⟩
  have hpress := (press_plain_eq_command hquit hmode hs hkey rfl).trans (hcut _)
  exact ⟨_, t, _, hpress, hquit, hmode, rfl, Registers.read_write _ _ _, ht, hbuffer,
    hselections⟩

/-- Pasting installs the edit, unless it adds too much. -/
theorem exists_press_paste (hquit : ed.quit = false) (hmode : ed.mode = .normal)
    (hcount : ed.count = .empty) (hs : ed.workspace.current? = some s)
    (hread : ed.registers.read Registers.defaultName = entries) (hentries : entries ≠ [])
    (hlimit : (pasteSize? s.selections entries 1).isSome = true)
    (hpaste : s.buffer.paste s.selections entries .before 1 = .ok e) :
    ∃ ed' t version, ed.press (.plain (code 'P')) = .ok ed' ∧
      ed'.workspace.current? = some t ∧ t.buffer = e.buffer.complete version ∧
      t.selections = e.selections := by
  have hkey : countKey? ed.count (.plain (code 'P')) = none := by
    rw [hcount]
    rfl
  have hwithin : (pasteSize? s.selections entries 1).isNone = false := by
    rw [← Option.not_isSome, hlimit]
    rfl
  have hpasted : ∀ ed : Editor, ed.registers.read Registers.defaultName = entries →
      ed.paste s .before 1 = .ok { ed with
        workspace := ed.workspace.applyEdit s.snapshot e } := by
    intro ed hread
    rw [paste, hread, if_neg (by rwa [List.isEmpty_iff]), hwithin, if_neg Bool.false_ne_true, hpaste]
    rfl
  rcases Workspace.exists_current?_applyEdit hs s.snapshot e with ⟨t, ht, hbuffer, hselections⟩
  have hpress := press_plain_eq_command hquit hmode hs hkey rfl
  rw [hcount] at hpress
  exact ⟨_, t, _, hpress.trans (hpasted _ hread), ht, hbuffer, hselections⟩

/-! ## One after the other -/

/-- Deleting and then pasting in front of what is left restores the bytes, if no two selections
border on each other: there are as many selections as before, the main one is the same, and
each of them covers the same bytes.

This holds of the operations for any bytes.  The two commands perform them as long as no more
bytes are deleted than one paste may add. -/
theorem delete_then_paste_restores {rope : Rope} {set : SelectionSet} (h : rope.Sound)
    (hset : set.Valid rope.length) (hlength : rope.length < lastOffset)
    (hapart : set.selections.Pairwise fun s t => s.last + 1 < t.first) :
    ∃ entries cut restored, rope.yank set = .ok entries ∧ rope.delete set = .ok cut ∧
      cut.buffer.paste cut.selections entries .before 1 = .ok restored ∧
      restored.buffer.toBytes = rope.toBytes ∧
      restored.selections.size = set.size ∧ restored.selections.main = set.main ∧
      restored.selections.coveredRanges rope.length = set.coveredRanges rope.length ∧
      ∀ ed s, ed.quit = false → ed.mode = .normal → ed.count = .empty →
        ed.workspace.current? = some s → s.buffer = rope → s.selections = set →
        (entries.map List.length).sum ≤ pasteLimit →
        ∃ ed' t, [Key.plain (code 'd'), .plain (code 'P')].foldlM press ed = .ok ed' ∧
          ed'.workspace.current? = some t ∧ t.buffer.toBytes = rope.toBytes ∧
          t.selections = restored.selections := by
  rcases h.exists_delete_eq_patch hset hlength hapart with
    ⟨cut, hcut, hsound, -, hselections, -, -⟩
  rcases h.exists_paste_deleted hset hlength hapart hcut hsound rfl with
    ⟨restored, hrestored, hbytes, hback⟩
  refine ⟨_, cut, restored, h.yank_eq set, hcut, hrestored, hbytes, ?_, ?_, ?_, ?_⟩
  · rw [hback, SelectionSet.size, List.length_map, SelectionSet.size]
  · rw [hback]
  · rw [hback, SelectionSet.coveredRanges, SelectionSet.coveredRanges, List.map_map]
    apply List.map_congr_left
    intro s hs
    have hlast := hset.last_le s hs
    rw [h.length_eq] at hlast hlength ⊢
    exact Selection.covered_ofRange_covered hlast hlength
  · rintro ed s hquit hmode hcount hs rfl rfl hlimit
    rcases exists_press_delete hquit hmode hcount hs (h.yank_eq _) hcut with
      ⟨next, t, version, hdelete, hquit', hmode', hcount', hread, ht, hbuffer, hset'⟩
    have hmarked : t.buffer.Sound := by
      rw [hbuffer]
      exact hsound.complete version
    rcases h.exists_paste_deleted hset hlength hapart hcut hmarked
      (by rw [hbuffer, Rope.toBytes_complete]) with ⟨pasted, hpasted, hbytes', hback'⟩
    rw [← hset'] at hpasted
    have hsize : (s.selections.selections.map (Selection.held s.buffer.toBytes)).length =
        t.selections.size := by
      rw [hset', hselections, SelectionSet.size, List.length_map, LocalEdit.length_settle,
        List.length_map]
    have hentries : s.selections.selections.map (Selection.held s.buffer.toBytes) ≠ [] := by
      rw [← List.length_pos_iff, List.length_map]
      exact hset.size_pos
    rcases exists_press_paste hquit' hmode' hcount' ht hread hentries
      (pasteSize?_isSome hsize hlimit) hpasted with
      ⟨ed', u, version', hpaste, hu, hubuffer, huset⟩
    refine ⟨ed', u, ?_, hu, ?_, ?_⟩
    · rw [List.foldlM_cons, hdelete]
      change next.press (.plain (code 'P')) >>= pure = _
      rw [hpaste]
      rfl
    · rw [hubuffer, Rope.toBytes_complete, hbytes']
    · rw [huset, hback', hback]

/-- A session on four bytes, with a selection of the first two and one behind the last. -/
def spacedSession : Session :=
  { Session.scratch with
    buffer := .ofBytes [1, 2, 3, 4]
    selections := ⟨[⟨1, 0⟩, .point 4], 1⟩ }

/-- The first two bytes are deleted and come back, and so do both selections. -/
theorem delete_then_paste_restores_spaced :
    ∃ ed t, [Key.plain (code 'd'), .plain (code 'P')].foldlM press
        (start ⟨[spacedSession], 0, 1⟩ .blank) = .ok ed ∧
      ed.workspace.current? = some t ∧ t.buffer.toBytes = [1, 2, 3, 4] ∧
      t.selections.size = 2 ∧ t.selections.main = 1 ∧
      t.selections.coveredRanges 4 = [⟨0, 2⟩, ⟨4, 4⟩] := by
  have hsound : spacedSession.buffer.Sound := Rope.sound_ofBytes [1, 2, 3, 4]
  have hbytes : spacedSession.buffer.toBytes = [1, 2, 3, 4] := Rope.toBytes_ofBytes _
  have hlength : spacedSession.buffer.length = 4 := by
    rw [hsound.length_eq, hbytes]
    rfl
  have hvalid : spacedSession.selections.Valid spacedSession.buffer.length := by
    rw [hlength]
    exact ⟨by decide, by decide, by decide⟩
  rcases delete_then_paste_restores hsound hvalid (by rw [hlength]; decide) (by decide) with
    ⟨entries, cut, restored, hyank, -, -, -, hsize, hmain, hcovered, hkeys⟩
  have hentries := hsound.yank_eq spacedSession.selections
  rw [hyank, hbytes] at hentries
  cases hentries
  rcases hkeys (start ⟨[spacedSession], 0, 1⟩ .blank) spacedSession rfl rfl rfl rfl rfl rfl
    (by decide) with ⟨ed, t, hrun, ht, hrestored, hselections⟩
  rw [hlength] at hcovered
  refine ⟨ed, t, hrun, ht, hrestored.trans hbytes, ?_, ?_, ?_⟩
  · rw [hselections, hsize]
    rfl
  · rw [hselections, hmain]
    rfl
  · rw [hselections, hcovered]
    decide

end Editor

end HexEditor
