import PocketShell.Filesystem

/-!
# Completion of the last word

What follows the last space of an input is completed to the names in the working directory that
start with it.
-/

namespace PocketShell

/-- How an input can be completed. -/
inductive Completion where
  | none
  /-- The whole input with its last word completed. -/
  | unique (line : String)
  /-- All names that start with the last word. -/
  | ambiguous (names : List String)
  deriving DecidableEq, Repr

namespace Completion

/-- What follows the last space. -/
def lastWord (input : String) : String :=
  String.ofList (input.toList.reverse.takeWhile (· != ' ')).reverse

/-- The input up to its last space. -/
def head (input : String) : String :=
  String.ofList (input.toList.reverse.dropWhile (· != ' ')).reverse

/-- A name as it is completed: that of a directory with a slash behind it. -/
def completed (node : Node) : String :=
  if node.isDirectory then node.name ++ "/" else node.name

/-- The completion of an input to one of the entries. -/
def among (entries : List Node) (input : String) : Completion :=
  let word := lastWord input
  if word.isEmpty then none
  else
    match entries.filter (Text.hasPrefix ·.name word) with
    | [] => none
    | [node] => unique (head input ++ completed node)
    | nodes => ambiguous (nodes.map Node.name)

end Completion

/-- The completion of an input in the working directory. -/
def Filesystem.complete (fs : Filesystem) (input : String) : Completion :=
  match fs.list none with
  | .ok entries => Completion.among entries input
  | .error _ => .none

end PocketShell
