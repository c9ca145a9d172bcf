import HexEditor.Command.Line
import HexEditor.Editor.State

/-!
# The commands of the command line

Commands open, save and close sessions and change the view.  They can be entered
at a prompt or come from a file of commands that is read at the start.

Main definitions:

- `Command` lists the commands and `Command.registry` their names.
- `Editor.execute` runs one command line.
- `Editor.runFile` runs the lines of a file.
-/

namespace HexEditor

/-- What a command line can ask for. -/
inductive Command where
  /-- Close the current session, with its changes if forced. -/
  | close (force : Bool)
  /-- Save the current session. -/
  | write
  /-- Save all sessions. -/
  | writeAll
  /-- Save the current session and close it. -/
  | writeAndClose
  /-- Open a path. -/
  | edit
  /-- Go to the next session. -/
  | next
  /-- Go to the previous session. -/
  | previous
  /-- Set the width of the rows. -/
  | setWidth
  /-- Set a display option. -/
  | setSwitch (switch : Switch)
deriving DecidableEq

/-- The names of the commands. -/
def Command.registry : Registry Command :=
  Registry.empty
    |>.bindAll [ascii "q", ascii "quit", ascii "db", ascii "delete-buffer"] (.close false)
    |>.bindAll [ascii "q!", ascii "quit!", ascii "db!", ascii "delete-buffer!"] (.close true)
    |>.bindAll [ascii "w", ascii "write"] .write
    |>.bindAll [ascii "wa", ascii "write-all"] .writeAll
    |>.bind (ascii "wq") .writeAndClose
    |>.bindAll [ascii "e", ascii "edit"] .edit
    |>.bindAll [ascii "bn", ascii "buffer-next"] .next
    |>.bindAll [ascii "bp", ascii "buffer-prev"] .previous
    |>.bind (ascii "set width") .setWidth
    |>.bind (ascii "set ascii") (.setSwitch .characters)
    |>.bind (ascii "set offsets") (.setSwitch .offsets)

/-- The width that the arguments ask for. -/
def WidthError.check (args : List Text) : Except WidthError Nat :=
  match args with
  | [] => .error .missing
  | arg :: _ =>
    if arg.isEmpty || !arg.all Text.isDecimalDigit then .error .notANumber
    else
      let width := arg.foldl (fun n b => 10 * n + (b.toNat - 48)) 0
      if lastOffset < width then .error .tooBigForWord
      else if width < 1 then .error .tooSmall
      else if widthLimit < width then .error .tooLarge
      else .ok width

/-- The value that the arguments give to an option.  Without any it changes to
the other value; a word that is no value is refused. -/
def Switch.read? (args : List Text) (current : Bool) : Option Bool :=
  match args with
  | [] => some (!current)
  | value :: _ =>
    if value = ascii "on" ∨ value = ascii "1" ∨ value = ascii "true" then some true
    else if value = ascii "off" ∨ value = ascii "0" ∨ value = ascii "false" then some false
    else none

namespace ViewOptions

/-- The value of an option. -/
def get (view : ViewOptions) : Switch → Bool
  | .characters => view.showAscii
  | .offsets => view.showOffsets

/-- The view with another value of an option. -/
def set (view : ViewOptions) (on : Bool) : Switch → ViewOptions
  | .characters => { view with showAscii := on }
  | .offsets => { view with showOffsets := on }

end ViewOptions

namespace Editor

/-- Close the current session.  Closing the last one ends the editor. -/
def closeSession (ed : Editor) (force : Bool) : Editor :=
  match ed.workspace.close? force with
  | .error e => ed.tell (.notClosed e)
  | .ok workspace =>
    let ed := { ed with workspace }
    match workspace.current? with
    | none => { ed with quit := true }
    | some s => ed.tell (.nowEditing s.path)

/-- Save the current session to the path in the arguments, or to its own.  Where no
session is open the command goes astray: it saves an empty session that is none of the
open ones. -/
def writeSession (ed : Editor) (args : List Text) : Except Fault (Editor × FileReport) :=
  match ed.workspace.write? ed.disk args.head? with
  | none =>
    let (_, disk, report) := Session.scratch.save ed.disk args.head?
    .ok ({ ed with disk, notice := .file report, astray := true }, report)
  | some (workspace, disk, report) => .ok ({ ed with workspace, disk, notice := .file report }, report)

/-- Run a command. -/
def run (ed : Editor) (command : Command) (args : List Text) : Except Fault Editor :=
  match command with
  | .close force => .ok (ed.closeSession force)
  | .write => (ed.writeSession args).map (·.1)
  | .writeAll =>
    let (workspace, disk, report) := ed.workspace.writeAll ed.disk
    .ok { ed with workspace, disk, notice := .file report }
  | .writeAndClose => do
    let (ed, report) ← ed.writeSession args
    return if report.isFailure then ed else ed.closeSession true
  | .edit =>
    match args with
    | [] => .ok (ed.tell .editNeedsPath)
    | path :: _ =>
      let (workspace, report) := ed.workspace.openPath ed.disk path
      .ok { ed with workspace, notice := .file report }
  | .next => .ok { ed with workspace := ed.workspace.next }
  | .previous => .ok { ed with workspace := ed.workspace.previous }
  | .setWidth =>
    match WidthError.check args with
    | .error e => .ok (ed.tell (.badWidth e))
    | .ok width => .ok { ed with view := { ed.view with width }, notice := .width width }
  | .setSwitch switch =>
    match Switch.read? args (ed.view.get switch) with
    | none => .ok (ed.tell (.badSwitch switch))
    | some on => .ok { ed with view := ed.view.set on switch, notice := .switched switch on }

/-- Run a command line. -/
def execute (ed : Editor) (line : Text) : Except Fault Editor :=
  match Command.registry.lookUp line with
  | .blank => .ok ed
  | .unknown name => .ok (ed.tell (.unknownCommand name))
  | .call command args => ed.run command args

/-- The command line that a line of a file holds.  Blank lines and lines that
begin with a number sign or a quotation mark hold none, and a colon may stand in
front. -/
def commandOfLine (line : Text) : Option Text :=
  match Text.trim line with
  | [] => none
  | first :: rest =>
    if first = 35 ∨ first = 34 then none
    else if first = 58 then some rest
    else some (first :: rest)

/-- Run the command lines of a file, one after the other.  A file that is missing
changes nothing. -/
def runFile (ed : Editor) (path : Text) : Except Fault Editor :=
  if ed.disk.hasEntry path then
    match ed.disk.loadLines path with
    | .error e => .ok (ed.tell (.unreadable e))
    | .ok lines => (lines.filterMap commandOfLine).foldlM execute ed
  else .ok ed

end Editor

end HexEditor
