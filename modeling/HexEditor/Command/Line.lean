import HexEditor.Text

/-!
# Command lines

A command line is a name and arguments, separated by blanks.  The settings have
names of two words: `set width` stands for the option as well, and the value may
follow the option after an equals sign.

Main definitions:

- `CommandLine.parse` reads a line.
- `Registry` binds names to meanings, and `Registry.lookUp` finds the meaning of a
  line.
-/

namespace HexEditor

/-- A command with its arguments. -/
structure CommandLine where
  /-- The name; empty for a blank line. -/
  name : Text
  /-- The words behind it. -/
  args : List Text
deriving DecidableEq

namespace CommandLine

/-- The word that begins a setting. -/
def setWord : Text := ascii "set"

/-- Read a setting from its option and the words behind it.  What follows an
equals sign within the option is the first argument, unless it is empty. -/
def ofSetting (option : Text) (rest : List Text) : CommandLine :=
  let name := option.takeWhile (· ≠ 61)
  let value := (option.dropWhile (· ≠ 61)).drop 1
  ⟨setWord ++ ascii " " ++ name, if value.isEmpty then rest else value :: rest⟩

/-- Read a command from its words. -/
def ofWords : List Text → CommandLine
  | [] => ⟨[], []⟩
  | [name] => ⟨name, []⟩
  | name :: first :: rest =>
    if name = setWord then ofSetting first rest else ⟨name, first :: rest⟩

/-- Read a command line. -/
def parse (line : Text) : CommandLine :=
  ofWords (Text.words line)

end CommandLine

/-- What a command line turns out to be. -/
inductive Invocation (α : Type) where
  /-- There is nothing on the line. -/
  | blank
  /-- No command has this name. -/
  | unknown (name : Text)
  /-- A command with its arguments. -/
  | call (command : α) (args : List Text)

/-- Names bound to commands; a later binding of a name replaces an earlier one. -/
structure Registry (α : Type) where
  /-- The bindings, latest first. -/
  bindings : List (Text × α)

namespace Registry

variable {α : Type}

/-- Nothing is bound. -/
def empty : Registry α := ⟨[]⟩

/-- Bind a name to a command. -/
def bind (r : Registry α) (name : Text) (command : α) : Registry α :=
  ⟨(name, command) :: r.bindings⟩

/-- Bind several names to one command. -/
def bindAll (r : Registry α) (names : List Text) (command : α) : Registry α :=
  names.foldl (fun r name => r.bind name command) r

/-- Find the command that a line invokes. -/
def lookUp (r : Registry α) (line : Text) : Invocation α :=
  let parsed := CommandLine.parse line
  if parsed.name.isEmpty then .blank
  else
    match r.bindings.find? fun b => b.1 == parsed.name with
    | none => .unknown parsed.name
    | some (_, command) => .call command parsed.args

end Registry

end HexEditor
