import PocketShell.Filesystem.Fault

/-!
# Why a command fails

The wording starts with what went wrong; the name of the command is put in front of it. Each fault
belongs to one of five kinds.
-/

namespace PocketShell.Command

/-- Kinds of faults. -/
inductive FaultKind where
  | notFound
  | alreadyExists
  | notEmpty
  | invalidArgument
  | permissionDenied
  deriving DecidableEq, Repr

/-- The kind of a fault of the tree. -/
def FaultKind.ofFilesystem : Filesystem.Fault → FaultKind
  | .notFound _ => notFound
  | .alreadyExists _ => alreadyExists
  | .notEmpty _ => notEmpty
  | .isADirectory _ | .invalidName _ | .tooDeep _ | .malformedSnapshot _ | .unwritableTime =>
    invalidArgument

/-- Why a command fails. -/
inductive Fault where
  | missingOperand (operand : String)
  | unknownOption (option : String)
  | noSuchFile (path : String)
  | noSuchDirectory (path : String)
  | cannotAccess (path : String)
  | cannotCreateDirectory (name : String) (reason : Filesystem.Fault)
  | cannotTouch (name : String) (reason : Filesystem.Fault)
  | cannotRemove (name : String) (reason : Filesystem.Fault)
  | invalidPid (word : String)
  | noSuchProcess (pid : Nat)
  | protectedProcess (pid : Nat)
  | noHelpTopic (topic : String)
  deriving DecidableEq, Repr

namespace Fault

/-- The wording of a fault. -/
def message : Fault → String
  | missingOperand operand => "missing " ++ operand
  | unknownOption option => "invalid option '" ++ option ++ "'"
  | noSuchFile path => path ++ ": No such file"
  | noSuchDirectory path => path ++ ": No such directory"
  | cannotAccess path => "cannot access '" ++ path ++ "': No such directory"
  | cannotCreateDirectory name reason =>
    "cannot create directory '" ++ name ++ "': " ++ reason.message
  | cannotTouch name reason => "cannot touch '" ++ name ++ "': " ++ reason.message
  | cannotRemove name reason => "cannot remove '" ++ name ++ "': " ++ reason.message
  | invalidPid word => "invalid pid '" ++ word ++ "'"
  | noSuchProcess pid => "(" ++ Text.decimal pid ++ ") - No such process"
  | protectedProcess pid => "(" ++ Text.decimal pid ++ ") - Permission denied"
  | noHelpTopic topic => "no help topics match '" ++ topic ++ "'"

/-- The kind of a fault. -/
def kind : Fault → FaultKind
  | missingOperand _ | unknownOption _ | invalidPid _ => .invalidArgument
  | noSuchFile _ | noSuchDirectory _ | cannotAccess _ | noSuchProcess _ | noHelpTopic _ =>
    .notFound
  | protectedProcess _ => .permissionDenied
  | cannotCreateDirectory _ reason | cannotTouch _ reason | cannotRemove _ reason =>
    .ofFilesystem reason

end Fault

end PocketShell.Command
