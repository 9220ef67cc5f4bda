import PocketShell.Command.Invocation
import PocketShell.Filesystem
import PocketShell.History
import PocketShell.ProcessTable

/-!
# Commands and their registry

A command changes the machine that it runs on and hands back an output, or it fails. A registry
lists commands in the order in which their names were first registered; a later command of the same
name takes the place of the earlier one.
-/

namespace PocketShell

open Time (Stamp)

/-- What commands can change: the tree and the processes. -/
structure Machine where
  filesystem : Filesystem
  processes : ProcessTable
  deriving Repr

/-- What the manual says of a command. -/
structure ManualPage where
  name : String
  description : String
  usage : String
  deriving DecidableEq, Repr

/-- What commands can read besides the machine. -/
structure Surroundings where
  now : Stamp
  history : History
  manual : List ManualPage
  deriving Repr

namespace Command

/-- What a command hands back. -/
inductive Output where
  /-- Text to show; empty text shows nothing. -/
  | text (text : String)
  /-- All that is shown is to be wiped. -/
  | clear
  /-- The session is to end. -/
  | exit
  deriving DecidableEq, Repr

/-- Something that changes a machine in place and hands back an output, or fails. -/
abbrev Action : Type :=
  Change Machine Fault Output

end Command

/-- A command: its page in the manual, how it wants its options, and what it does. -/
structure Command where
  page : ManualPage
  policy : Command.OptionPolicy
  run : Surroundings → Command.Invocation → Command.Action

namespace Command

def name (command : Command) : String :=
  command.page.name

end Command

/-- Commands in the order in which their names were first registered. -/
structure Registry where
  commands : List Command

namespace Registry

/-- The registry without commands. -/
def empty : Registry :=
  ⟨[]⟩

/-- The list with `command` in place of the one of the same name, or else at its end. -/
def put (command : Command) : List Command → List Command
  | [] => [command]
  | other :: rest =>
    if other.name = command.name then command :: rest else other :: put command rest

/-- Registers a command. -/
def register (registry : Registry) (command : Command) : Registry :=
  ⟨put command registry.commands⟩

/-- The command of the given name. -/
def find? (registry : Registry) (name : String) : Option Command :=
  registry.commands.find? (·.name == name)

/-- The pages of all commands, in order. -/
def manual (registry : Registry) : List ManualPage :=
  registry.commands.map Command.page

/-- Why a line fails as a whole. -/
inductive Fault where
  | commandNotFound (name : String)
  | commandFailed (name : String) (reason : Command.Fault)
  deriving DecidableEq, Repr

namespace Fault

/-- The wording of a fault. -/
def message : Fault → String
  | commandNotFound name => name ++ ": command not found"
  | commandFailed name reason => name ++ ": " ++ reason.message

/-- The kind of a fault. -/
def kind : Fault → Command.FaultKind
  | commandNotFound _ => .notFound
  | commandFailed _ reason => reason.kind

end Fault

/-- Runs a command on a line. -/
def runCommand (command : Command) (around : Surroundings) (line : CommandLine) :
    Command.Action := do
  let invocation ← Change.reading fun _ => Command.Invocation.ofLine line command.policy
  command.run around invocation

/-- Runs the command that a line names. -/
def dispatch (registry : Registry) (now : Stamp) (history : History) (line : CommandLine) :
    Change Machine Fault Command.Output :=
  match registry.find? line.command with
  | none => throw (.commandNotFound line.command)
  | some command =>
    EStateM.adaptExcept (.commandFailed line.command)
      (runCommand command ⟨now, history, registry.manual⟩ line)

end Registry

end PocketShell
