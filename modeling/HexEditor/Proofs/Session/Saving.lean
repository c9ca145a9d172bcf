import HexEditor.Proofs.Disk.Replacing
import HexEditor.Proofs.Rope.Equality
import HexEditor.Proofs.Session.Current

/-!
# Saving sessions

A session that is saved is afterwards on the path it was saved to, and its version counts as
saved.  One whose saving is refused stays as it was.  When all sessions are saved this goes on
from one to the next, on the disk that the last one left, up to the first refusal.

Main definitions and results:

- Theorems `Session.save_none_cases` and `Session.save_some_cases`: saving one session.
- Theorem `Workspace.eq_of_write?_failure`: a failure leaves all sessions.
- `Workspace.Written` relates the disk before a row of sessions is saved to the disk after it,
  and `Workspace.Outcome` lists how saving all sessions can end.
- Theorem `Workspace.save_all_or_nothing`: what is on the disk and in the sessions after files
  were saved, or were not.
- Theorem `Workspace.temporary_is_another_file`: what can happen where its conditions do not hold.
-/

namespace HexEditor

/-! ## Saving one session -/

/-- A session that is saved to its own path stays as it was, or its version counts as saved. -/
theorem Session.save_none_cases (s : Session) (disk : Disk) :
    (s.save disk none).1 = s ∨ (s.save disk none).1 = s.markSaved := by
  have hown : (none <|> s.path) = s.path := rfl
  rw [save, hown]
  rcases hpath : s.path with _ | target
  · exact .inl rfl
  · dsimp only
    rcases disk.save target s.buffer with ⟨disk', error | _⟩
    · exact .inl rfl
    · right
      rw [← hpath]

theorem Session.path_save_none (s : Session) (disk : Disk) :
    (s.save disk none).1.path = s.path := by
  rcases s.save_none_cases disk with hsame | hsaved
  · rw [hsame]
  · rw [hsaved]
    rfl

/-- A session that is saved to another path is on it afterwards, unless that is refused. -/
theorem Session.save_some_cases (s : Session) (disk : Disk) (target : Text) :
    ((s.save disk (some target)).1 = s ∧ (s.save disk (some target)).2.2.isFailure = true) ∨
      (s.save disk (some target)).1.path = some target ∧
        (s.save disk (some target)).2.2 = .saved target s.buffer.length := by
  have hgiven : (some target <|> s.path) = some target := rfl
  rw [save, hgiven]
  dsimp only
  rcases disk.save target s.buffer with ⟨disk', error | _⟩
  · exact .inl ⟨rfl, rfl⟩
  · exact .inr ⟨rfl, rfl⟩

/-- A session that was among those to be saved: its version counts as saved if it has a
path. -/
def Session.afterSaving (s : Session) : Session :=
  if s.path.isSome then s.markSaved else s

namespace Workspace

variable {w v : Workspace}

/-- A session that is not saved stays as it was. -/
theorem eq_of_write?_failure {disk disk' : Disk} {path : Option Text} {report : FileReport}
    (h : w.write? disk path = some (v, disk', report)) (hreport : report.isFailure = true) :
    v = w := by
  rcases Option.map_eq_some_iff.1 h with ⟨s, hs, hsaved⟩
  have hkept : (s.save disk path).2.2.isFailure = true → (s.save disk path).1 = s := by
    rw [Session.save]
    split
    · exact fun _ => rfl
    · split
      · exact fun _ => rfl
      · intro hfailed
        cases hfailed
  rcases hsave : s.save disk path with ⟨t, disk'', report'⟩
  rw [hsave] at hsaved hkept
  cases hsaved
  have hsame : t = s := hkept hreport
  rw [hsame, modifyCurrent_self hs]

/-! ## Saving all sessions -/

/-- Saving all sessions does nothing to any of them but count its version as saved. -/
theorem forall₂_saveEach (written skipped : Nat) (disk : Disk) (sessions : List Session) :
    List.Forall₂ (fun s t => t = s ∨ t = s.markSaved) sessions
      (saveEach written skipped disk sessions).1 := by
  induction sessions generalizing written skipped disk with
  | nil => exact .nil
  | cons s sessions ih =>
      have hsaved := s.save_none_cases disk
      rw [saveEach]
      split
      · exact .cons (.inl rfl) (ih ..)
      · split
        · rename_i hsave
          rw [hsave] at hsaved
          exact .cons hsaved (ih ..)
        · rename_i hsave
          rw [hsave] at hsaved
          exact .cons hsaved (List.forall₂_same.2 fun _ _ => .inl rfl)

theorem map_path_saveEach (written skipped : Nat) (disk : Disk)
    (sessions : List Session) :
    (saveEach written skipped disk sessions).1.map (·.path) = sessions.map (·.path) := by
  have hsaved := forall₂_saveEach written skipped disk sessions
  generalize (saveEach written skipped disk sessions).1 = saved at hsaved ⊢
  induction hsaved with
  | nil => rfl
  | cons hs _ ih =>
      rw [List.map_cons, List.map_cons, ih]
      rcases hs with rfl | rfl
      · rfl
      · rfl

/-- The sessions with a path are saved in turn, and the disk is first as the one and last as the
other. -/
inductive Written : Disk → List Session → Disk → Prop where
  | nil (disk : Disk) : Written disk [] disk
  /-- A session without a path is passed over. -/
  | pass {disk after : Disk} {s : Session} {rest : List Session} (hpath : s.path = none)
      (hrest : Written disk rest after) : Written disk (s :: rest) after
  /-- A session with a path is saved. -/
  | save {disk between after : Disk} {s : Session} {target : Text} {rest : List Session}
      (hpath : s.path = some target) (hsave : disk.save target s.buffer = (between, .ok ()))
      (hrest : Written between rest after) : Written disk (s :: rest) after

/-- How saving all sessions can end.  The numbers count those that were saved and passed over
before. -/
inductive Outcome (written skipped : Nat) (disk : Disk) (sessions : List Session) :
    List Session × Disk × FileReport → Prop where
  /-- All sessions with a path are saved. -/
  | complete {after : Disk} (hwritten : Written disk sessions after) :
      Outcome written skipped disk sessions (sessions.map Session.afterSaving, after,
        .savedAll (written + sessions.countP (·.path.isSome))
          (skipped + sessions.countP (·.path.isNone)))
  /-- Those with a path are saved up to the first that is refused. -/
  | refused {between after : Disk} {before rest : List Session} {s : Session} {target : Text}
      {error : FileError} (hsessions : sessions = before ++ s :: rest)
      (hwritten : Written disk before between) (hpath : s.path = some target)
      (hsave : between.save target s.buffer = (after, .error error)) :
      Outcome written skipped disk sessions
        (before.map Session.afterSaving ++ s :: rest, after, .refused error)

section Outcome

variable {written skipped : Nat} {disk between : Disk} {s : Session} {sessions : List Session}
  {result : List Session × Disk × FileReport}

/-- A session without a path in front is passed over. -/
theorem Outcome.pass (hpath : s.path = none)
    (h : Outcome written (skipped + 1) disk sessions result) :
    Outcome written skipped disk (s :: sessions) (s :: result.1, result.2) := by
  have hsame : s.afterSaving = s := by
    rw [Session.afterSaving, hpath]
    rfl
  cases h with
  | complete hwritten =>
      have hcomplete : Outcome written skipped disk (s :: sessions) _ :=
        .complete (.pass hpath hwritten)
      rw [List.map_cons, hsame, List.countP_cons_of_neg (by rw [hpath]; exact Bool.false_ne_true),
        List.countP_cons_of_pos (by rw [hpath]; rfl), Nat.add_comm _ 1, ← Nat.add_assoc]
        at hcomplete
      exact hcomplete
  | refused hsessions hwritten htarget hsave =>
      rename_i before rest t target error
      have hrefused : Outcome written skipped disk (s :: sessions) _ :=
        .refused (congrArg (s :: ·) hsessions) (.pass hpath hwritten) htarget hsave
      rw [List.map_cons, hsame] at hrefused
      exact hrefused

/-- A session in front is saved. -/
theorem Outcome.save {target : Text} (hpath : s.path = some target)
    (hsave : disk.save target s.buffer = (between, .ok ()))
    (h : Outcome (written + 1) skipped between sessions result) :
    Outcome written skipped disk (s :: sessions) (s.markSaved :: result.1, result.2) := by
  have hmarked : s.afterSaving = s.markSaved := by
    rw [Session.afterSaving, hpath]
    rfl
  cases h with
  | complete hwritten =>
      have hcomplete : Outcome written skipped disk (s :: sessions) _ :=
        .complete (.save hpath hsave hwritten)
      rw [List.map_cons, hmarked, List.countP_cons_of_pos (by rw [hpath]; rfl),
        List.countP_cons_of_neg (by rw [hpath]; exact Bool.false_ne_true), Nat.add_comm _ 1,
        ← Nat.add_assoc] at hcomplete
      exact hcomplete
  | refused hsessions hwritten htarget hrefusal =>
      have hrefused : Outcome written skipped disk (s :: sessions) _ :=
        .refused (congrArg (s :: ·) hsessions) (.save hpath hsave hwritten) htarget hrefusal
      rw [List.map_cons, hmarked] at hrefused
      exact hrefused

end Outcome

/-- Saving all sessions ends in one of these ways.  The induction follows the list, on the disk
that the sessions before have left. -/
theorem outcome_saveEach (written skipped : Nat) (disk : Disk) (sessions : List Session) :
    Outcome written skipped disk sessions (saveEach written skipped disk sessions) := by
  induction sessions generalizing written skipped disk with
  | nil => exact .complete (.nil disk)
  | cons s sessions ih =>
      rw [saveEach]
      rcases hpath : s.path with _ | target
      · exact .pass hpath (ih ..)
      · have hown : (none <|> s.path) = some target := hpath
        rcases hsave : disk.save target s.buffer with ⟨between, error | _⟩
        · have hrefused : s.save disk none = (s, between, .refused error) := by
            simp only [Session.save, hown, hsave]
          dsimp only
          rw [hrefused]
          have hnone : s :: sessions = [] ++ s :: sessions := rfl
          exact .refused hnone (.nil disk) hpath hsave
        · have hsaved : s.save disk none =
              (s.markSaved, between, .saved target s.buffer.length) := by
            simp only [Session.save, hown, hsave]
            rw [← hpath]
          dsimp only
          rw [hsaved]
          exact .save hpath hsave (ih ..)

/-! ## All or nothing -/

/-- The system may refuse any call but the removal and may take a part of the bytes only.  If a
path and that of its temporary file name two things, the path leads after a save to a file with
all bytes of the version, so that loading it gives a version that compares as equal, or to what it
led to before.  No temporary file is left that was not there, and nothing else on the disk
changes.

A failure to save the current session leaves all sessions, and saving all of them marks those
with a path up to the first refusal. -/
theorem save_all_or_nothing {buffer : Rope} (hbuffer : buffer.Reachable) :
    (∀ (disk : Disk) (path : Text), disk.Apart path →
      (∀ after, disk.save path buffer = (after, .ok ()) →
        disk.Replaced after path buffer.toBytes ∧
          ∀ version, ((Rope.ofBytes buffer.toBytes).complete version).sameBytes buffer = true) ∧
      ∀ after error, disk.save path buffer = (after, .error error) → disk.Kept after path) ∧
    (∀ (w v : Workspace) (disk after : Disk) target report,
      w.write? disk target = some (v, after, report) → report.isFailure = true → v = w) ∧
    ∀ (w : Workspace) (disk : Disk),
      Outcome 0 0 disk w.sessions ((w.writeAll disk).1.sessions, (w.writeAll disk).2) := by
  refine ⟨fun disk path hapart => ⟨fun after hsave => ⟨?_, fun version => ?_⟩,
    fun after error hsave => ?_⟩, fun w v disk after target report => eq_of_write?_failure,
    fun w disk => ?_⟩
  · have hbytes : (buffer.chunks ⟨0, buffer.length⟩).bytes = buffer.toBytes := by
      rw [hbuffer.sound.bytes_chunks, hbuffer.sound.length_eq]
      exact List.take_length
    rw [← hbytes]
    exact Disk.replaced_of_save hapart hsave
  · apply ((Rope.sound_ofBytes _).complete version).sameBytes_of_toBytes_eq hbuffer.sound
    rw [Rope.toBytes_complete, Rope.toBytes_ofBytes]
  · exact Disk.kept_of_save hapart hsave
  · exact outcome_saveEach 0 0 disk w.sessions

/-- The location of a name in the working directory. -/
def atWork (name : String) : Location :=
  [ascii "work", ascii name]

/-- A disk with a file of one byte. -/
def fileDisk : Disk :=
  Disk.blank.put (ascii "b") [9]

/-- A disk with that file and a link to it. -/
def linkDisk : Disk :=
  fileDisk.setNode (atWork "a") (.link (ascii "b"))

/-- A save over a link puts a file in its place.  If the bytes are taken one at a time, with an
interruption between them, and completing the file is refused, the link still leads to what it
led to, and the temporary file is gone. -/
theorem save_all_or_nothing_over_link :
    let full := { linkDisk with
      answers := [.done 0, .done 0, .refused .interrupted, .done 0,
        .refused (.other (ascii "No space left on device"))] }
    (∃ after, linkDisk.save (ascii "a") (.ofBytes [1, 2]) = (after, .ok ()) ∧
      after.load (ascii "a") = .ok [1, 2]) ∧
    ∃ after error, full.save (ascii "a") (.ofBytes [1, 2]) = (after, .error error) ∧
      after.entryAt (ascii "a") = .ok (.file [9]) ∧ after.hasEntry (ascii "a.tmp") = false := by
  intro full
  have hsaves := (save_all_or_nothing (.ofBytes [1, 2])).1
  have hlink : linkDisk.Apart (ascii "a") := by
    have htemporary : linkDisk.locate (ascii "a.tmp") = .ok (atWork "a.tmp") := by decide +kernel
    have hplace : linkDisk.locate (ascii "a") = .ok (atWork "a") := by decide +kernel
    refine Disk.apart_of_missing (by decide) htemporary ?_ hplace ?_
    all_goals decide +kernel
  have hfull : full.Apart (ascii "a") := Disk.apart_answers hlink _
  constructor
  · rcases hsave : linkDisk.save (ascii "a") (.ofBytes [1, 2]) with ⟨after, error | _⟩
    · have hdone : (linkDisk.save (ascii "a") (.ofBytes [1, 2])).2.isOk = true := by
        decide +kernel
      rw [hsave] at hdone
      cases hdone
    · have hreplaced := ((hsaves linkDisk _ hlink).1 after hsave).1
      rw [Rope.toBytes_ofBytes] at hreplaced
      exact ⟨after, rfl, hreplaced.load⟩
  · rcases hsave : full.save (ascii "a") (.ofBytes [1, 2]) with ⟨after, error | _⟩
    · have hkept := (hsaves full _ hfull).2 after error hsave
      have hentry : full.entryAt (ascii "a") = .ok (.file [9]) := by decide +kernel
      have htemporary : full.hasEntry (ascii "a.tmp") = false := by decide +kernel
      exact ⟨after, error, rfl, (hkept.entryAt _).2 hentry, hkept.temporary htemporary⟩
    · have hrefused : (full.save (ascii "a") (.ofBytes [1, 2])).2.isOk = false := by
        decide +kernel
      rw [hsave] at hrefused
      cases hrefused

/-- None of the conditions can be left out.  A path with a zero byte and that of its temporary file
mean one file, which is there after the save.  If there is a link or a second name in the place of
the temporary file, another file gets the bytes.  If the path is a link to the temporary file, a
save that is refused takes away what it led to.  And if it names a link on its own way, it leads
nowhere after the save. -/
theorem temporary_is_another_file :
    ((Disk.blank.save [97, 0, 98] (.ofBytes [1])).2 = .ok () ∧
      (Disk.blank.save [97, 0, 98] (.ofBytes [1])).1.hasEntry
        (Disk.temporaryPath [97, 0, 98]) = true) ∧
    (∀ node ∈ [Disk.Node.link (ascii "b"), .file 0],
      let disk := fileDisk.setNode (atWork "a.tmp") node
      (disk.save (ascii "a") (.ofBytes [1])).2 = .ok () ∧ disk.load (ascii "b") = .ok [9] ∧
        (disk.save (ascii "a") (.ofBytes [1])).1.load (ascii "b") = .ok [1]) ∧
    (let disk := { (Disk.blank.put (ascii "a.tmp") [9]).setNode (atWork "a")
        (.link (ascii "a.tmp")) with answers := [.done 0, .refused .busy] }
     disk.load (ascii "a") = .ok [9] ∧ (disk.save (ascii "a") (.ofBytes [1])).2.isOk = false ∧
       (disk.save (ascii "a") (.ofBytes [1])).1.hasEntry (ascii "a") = false) ∧
    (let disk := fileDisk.setNode (atWork "l") (.link (ascii "."))
     (disk.save (ascii "l/l") (.ofBytes [1])).2 = .ok () ∧
       (disk.save (ascii "l/l") (.ofBytes [1])).1.hasEntry (ascii "l/l") = false) := by
  decide +kernel

end Workspace

end HexEditor
