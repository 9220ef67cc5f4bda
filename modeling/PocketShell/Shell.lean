import PocketShell.Command.Builtin
import PocketShell.Shell.Completion

/-!
# The shell

A shell is a machine, the commands that run on it and the lines entered before. Executing a line
changes the shell and shows some lines: the line itself behind the working directory, and then what
the command shows or why it failed.
-/

namespace PocketShell

open Time (Stamp)

/-- What a shown line is. -/
inductive LineKind where
  | input
  | output
  | error
  deriving DecidableEq, Repr

/-- A shown line. Its text can hold line breaks. -/
structure TerminalLine where
  kind : LineKind
  text : String
  deriving DecidableEq, Repr

/-- What executing a line shows. -/
structure Outcome where
  /-- All that was shown before is wiped. -/
  didClear : Bool
  exitRequested : Bool
  lines : List TerminalLine
  deriving DecidableEq, Repr

namespace Outcome

/-- Nothing is shown. -/
def empty : Outcome :=
  ⟨false, false, []⟩

/-- The lines that a command's output shows. -/
def ofText (text : String) : List TerminalLine :=
  if text.isEmpty then [] else [⟨.output, text⟩]

/-- What an output shows after the line that asked for it. -/
def ofOutput (input : TerminalLine) : Command.Output → Outcome
  | .text text => ⟨false, false, input :: ofText text⟩
  | .clear => ⟨true, false, []⟩
  | .exit => ⟨false, true, [input]⟩

/-- What a failure shows after the line that failed. -/
def ofFault (input : TerminalLine) (fault : Registry.Fault) : Outcome :=
  ⟨false, false, [input, ⟨.error, fault.message⟩]⟩

end Outcome

/-- A machine, the commands that run on it, and the lines entered before. -/
structure Shell where
  machine : Machine
  registry : Registry
  history : History

namespace Shell

/-- The shell of a user without a saved session. The process of the system is started under the
identifier `id`, after the tree is made. -/
def startAt (clock : Nat → Stamp) (id user : String) : Shell :=
  ⟨⟨.startAt clock user, .boot id (clock Filesystem.startReadings)⟩, Command.Builtin.registry,
    .empty⟩

/-- How often the clock is read for a new shell. -/
def startReadings : Nat := Filesystem.startReadings + 1

/-- The shell of a user without a saved session, made while the clock stands at `now`. -/
def start (now : Stamp) (id user : String) : Shell :=
  startAt (fun _ => now) id user

/-- The tree of the shell. -/
def filesystem (shell : Shell) : Filesystem :=
  shell.machine.filesystem

/-- The processes of the shell. -/
def processes (shell : Shell) : ProcessTable :=
  shell.machine.processes

/-- The shell with another tree. -/
def withFilesystem (shell : Shell) (filesystem : Filesystem) : Shell :=
  { shell with machine := { shell.machine with filesystem } }

/-- The shell with other processes. -/
def withProcesses (shell : Shell) (processes : ProcessTable) : Shell :=
  { shell with machine := { shell.machine with processes } }

/-- What the prompt shows before a line. -/
def promptText (path : String) : String :=
  path ++ " $"

/-- Executes a line. A blank line does nothing. -/
def execute (shell : Shell) (now : Stamp) (line : String) : Shell × Outcome :=
  let line := Text.trim line
  if line.isEmpty then (shell, .empty)
  else
    let input : TerminalLine :=
      ⟨.input, promptText shell.filesystem.currentPath ++ " " ++ line⟩
    let history := shell.history.record line
    match (shell.registry.dispatch now history (.parse line)).run shell.machine with
    | .ok output machine => ({ shell with machine, history }, .ofOutput input output)
    | .error fault machine => ({ shell with machine, history }, .ofFault input fault)

/-- The completion of an input. -/
def complete (shell : Shell) (input : String) : Completion :=
  shell.filesystem.complete input

/-- Puts the tree of a snapshot in place of the tree of the shell. -/
def restore (snapshot : String) : Change Shell Filesystem.Fault Unit :=
  .within filesystem withFilesystem (Filesystem.Change.restore snapshot)

/-- The shell with the initial tree, without history and with the protected processes only. -/
def resetAt (shell : Shell) (clock : Nat → Stamp) : Shell :=
  { shell with
    machine := ⟨shell.filesystem.resetAt clock, shell.processes.clear⟩
    history := .empty }

/-- The shell that is reset while the clock stands at `now`. -/
def reset (shell : Shell) (now : Stamp) : Shell :=
  shell.resetAt fun _ => now

end Shell

end PocketShell
