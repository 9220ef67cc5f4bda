import PocketShell.Snapshot.Entry

/-!
# Why an operation on the tree fails

The wording names the reason alone; whoever reports it puts the path or name in front.
-/

namespace PocketShell.Filesystem

/-- Why an operation on the tree fails. -/
inductive Fault where
  /-- The path, as given, leads nowhere. -/
  | notFound (path : String)
  | alreadyExists (name : String)
  | isADirectory (name : String)
  | notEmpty (name : String)
  | invalidName (name : String)
  | tooDeep (name : String)
  /-- A text is not the snapshot of a tree. -/
  | malformedSnapshot (reason : Snapshot.Fault)
  /-- A time in the tree has no written form. -/
  | unwritableTime
  deriving DecidableEq, Repr

/-- The wording of a fault. -/
def Fault.message : Fault → String
  | notFound _ => "No such file or directory"
  | alreadyExists _ => "File exists"
  | isADirectory _ => "Is a directory"
  | notEmpty _ => "Directory not empty"
  | invalidName _ => "Invalid name"
  | tooDeep _ => "Too many levels of directories"
  | malformedSnapshot reason => "Malformed snapshot: " ++ reason.message
  | unwritableTime => "Failed to encode snapshot"

end PocketShell.Filesystem
