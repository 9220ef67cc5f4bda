import PocketShell.Command.Builtin.Processes
import PocketShell.Command.Builtin.Session

/-!
# The commands of every shell
-/

namespace PocketShell.Command.Builtin

/-- The commands of every shell, in the order in which the manual lists them. -/
def all : List Command :=
  [ls, cd, pwd, mkdir, touch, cat, rm, echo, ps, kill, clear, help, history, exit]

/-- The registry of every shell. -/
def registry : Registry :=
  all.foldl Registry.register .empty

end PocketShell.Command.Builtin
