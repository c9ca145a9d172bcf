import HexEditor.Proofs.Editor.Turns

/-!
# States that can come up

An editor begins on the sessions of some opened files, may run a file of command lines,
and then handles keys.  Between two keys the files on the disk may change in any way.
Its open sessions are at every time the result of moves from no open session.

Main results:

- Definition `Editor.Reachable`: the states that can come up.
- Theorem `Editor.Reachable.moves`: their sessions come from none by moves.
- Theorem `Editor.reachable_selections`: the selections of every open session are in
  order, share no offset, have a main one among them, and do not go beyond the file.
-/

namespace HexEditor

namespace Editor

/-- The states of an editor that can come up.  A key that ends in a fault leaves the
state, so it leads to no other one. -/
inductive Reachable : Editor → Prop where
  /-- The editor has begun on files that were opened one after the other. -/
  | start {w : Workspace} {disk : Disk} (opened : w.Opened disk.directory) :
      Reachable (.start w disk)
  /-- Then it has run a file of command lines. -/
  | configured {w : Workspace} {disk : Disk} {ed : Editor} {path : Text}
      (opened : w.Opened disk.directory) (ran : (Editor.start w disk).runFile path = .ok ed) :
      Reachable ed
  /-- A key has been pressed. -/
  | press {ed ed' : Editor} {key : Key} (reachable : Reachable ed)
      (pressed : ed.press key = .ok ed') : Reachable ed'
  /-- The files have been changed from outside. -/
  | disturb {ed : Editor} (reachable : Reachable ed) {disk : Disk}
      (hdisk : disk.directory = ed.disk.directory) : Reachable { ed with disk }

/-- Any number of keys may be pressed. -/
theorem Reachable.pressAll {ed ed' : Editor} {keys : List Key} (h : ed.Reachable)
    (pressed : keys.foldlM Editor.press ed = .ok ed') : ed'.Reachable :=
  foldlM_preserves (fun hreachable hkey => hreachable.press hkey) h pressed

/-- What holds of every editor that begins, and of every state that follows one of which it
holds, holds of all states that can come up, if it does not depend on the files. -/
theorem Reachable.follows_induction {P : Editor → Prop}
    (hstart : ∀ {w : Workspace} {disk : Disk}, w.Opened disk.directory → P (.start w disk))
    (hfollows : ∀ {ed ed' : Editor} {trips : Trip → Prop}, P ed → ed.Follows trips ed' → P ed')
    (hdisturb : ∀ {ed : Editor} {disk : Disk}, P ed → disk.directory = ed.disk.directory →
      P { ed with disk })
    {ed : Editor} (h : ed.Reachable) : P ed := by
  induction h with
  | start opened => exact hstart opened
  | configured opened ran => exact runFile_induction hfollows rfl (hstart opened) ran
  | press _ pressed ih => exact hfollows ih (followsTo_press _ _ _ pressed)
  | disturb _ hdisk ih => exact hdisturb ih hdisk

/-- An editor that is begun opens a session if there is none. -/
theorem moves_start {w : Workspace} {disk : Disk} (opened : w.Opened disk.directory) :
    Workspace.Moves disk.directory .empty (Editor.start w disk).workspace := by
  rw [Editor.start]
  dsimp only
  split_ifs
  · exact opened.moves.tail .openScratch
  · exact opened.moves

/-- Sessions that have just been opened have no group. -/
theorem grouped_start {w : Workspace} {disk : Disk} (opened : w.Opened disk.directory) :
    (Editor.start w disk).workspace.Grouped false := by
  have hopened : w.Grouped false := by
    induction opened with
    | empty =>
        intro i s hs
        cases hs
    | openPath _ disk _ path ih => exact ih.openPath disk path
  rw [Editor.start]
  dsimp only
  split_ifs
  · exact hopened.openScratch
  · exact hopened

/-- The open sessions come from no session by moves, in the directory of the disk. -/
theorem Reachable.moves {ed : Editor} (h : ed.Reachable) :
    Workspace.Moves ed.disk.directory .empty ed.workspace := by
  apply h.follows_induction moves_start
  · intro ed ed' _ hmoves hfollows
    rw [hfollows.directory]
    exact hmoves.trans hfollows.turn.moves
  · intro ed disk hmoves hdisk
    rw [hdisk]
    exact hmoves

/-- The sessions of every state that can come up are valid. -/
theorem Reachable.valid {ed : Editor} (h : ed.Reachable) : ed.workspace.Valid :=
  Workspace.valid_empty.moves h.moves

/-- What a state that can come up keeps besides its sessions is in order. -/
theorem Reachable.tidy {ed : Editor} (h : ed.Reachable) : ed.Tidy :=
  h.follows_induction (fun _ => tidy_start _ _) (fun htidy hfollows => hfollows.tidy htidy)
    fun htidy _ => htidy.of_same rfl rfl rfl

/-- A group of changes is open exactly in the session in which bytes are being typed. -/
theorem Reachable.grouped {ed : Editor} (h : ed.Reachable) :
    ed.workspace.Grouped ed.mode.isEditing := by
  apply h.follows_induction
  · intro w disk opened
    exact grouped_start opened
  · intro ed ed' _ hgrouped hfollows
    exact hgrouped.turn hfollows.turn
  · intro ed disk hgrouped _
    exact hgrouped

/-! ## A state on a file -/

/-- A disk with a file of two bytes. -/
def pairDisk : Disk := Disk.blank.setEntry [ascii "work", ascii "pair"] (.file [1, 2])

/-- The session on that file. -/
def pairSession : Session := .ofFile (ascii "pair") ((Rope.ofBytes [1, 2]).complete 0)

theorem opened_pair : (⟨[pairSession], 0, 1⟩ : Workspace).Opened pairDisk.directory :=
  .openPath .empty pairDisk rfl (ascii "pair")

theorem length_pairSession : pairSession.buffer.length = 2 := by
  simp [pairSession, Session.ofFile]

theorem toBytes_pairSession : pairSession.buffer.toBytes = [1, 2] := by
  simp [pairSession, Session.ofFile]

/-! ## Selections -/

/-- Whatever keys have been pressed, every open session has at least one selection; its
selections are sorted by their first offsets and share none; the index of the main one
points at one of them; and no anchor and no cursor lies behind the end of the version. -/
theorem reachable_selections {ed : Editor} (h : ed.Reachable) :
    ∀ s ∈ ed.workspace.sessions,
      s.selections.selections ≠ [] ∧
      (s.selections.selections.Pairwise fun t u => t.first < u.first) ∧
      (s.selections.selections.Pairwise fun t u => t.last < u.first) ∧
      s.selections.main < s.selections.size ∧
      ∀ t ∈ s.selections.selections,
        t.anchor ≤ s.buffer.length ∧ t.cursor ≤ s.buffer.length := by
  intro s hs
  have hvalid : s.selections.Valid s.buffer.length := (h.valid s hs).snapshot.selections
  refine ⟨?_, hvalid.sorted, hvalid.separate, hvalid.main_lt, ?_⟩
  · exact List.length_pos_iff.1 hvalid.size_pos
  · intro t ht
    exact Selection.last_le_iff.1 (hvalid.last_le t ht)

/-- Inserting a letter into an empty session and selecting everything is such a run. -/
theorem reachable_selections_inserted :
    ∃ ed, [Key.char (code 'i') false false, .char (code 'a') false false, .escape,
          .char (code '%') false false].foldlM press (Editor.start .empty .blank) = .ok ed ∧
      ed.Reachable ∧ ed.workspace.sessions.length = 1 ∧
      ∀ s ∈ ed.workspace.sessions, s.selections.main < s.selections.size := by
  have hstart : (Editor.start .empty .blank).Reachable := .start .empty
  have hrun : ∃ ed, [Key.char (code 'i') false false, .char (code 'a') false false, .escape,
      .char (code '%') false false].foldlM press (Editor.start .empty .blank) = .ok ed ∧
      ed.workspace.sessions.length = 1 := ⟨_, rfl, rfl⟩
  rcases hrun with ⟨ed, hpressed, hone⟩
  have hreachable := hstart.pressAll hpressed
  refine ⟨ed, hpressed, hreachable, hone, ?_⟩
  intro s hs
  rcases reachable_selections hreachable s hs with ⟨-, -, -, hmain, -⟩
  exact hmain

end Editor

end HexEditor
