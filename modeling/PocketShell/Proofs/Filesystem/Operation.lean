import PocketShell.Filesystem

/-!
# Runs of operations

The operations that change a filesystem, one after another in any order, whether they succeed or
not.
-/

namespace PocketShell.Filesystem

open Time (Stamp)

/-- An operation that changes a filesystem, with all that it is given. -/
inductive Operation where
  | changeDirectory (path : String)
  | createDirectory (now : Stamp) (name : String)
  | createFile (now : Stamp) (name text : String)
  | touch (now : Stamp) (name : String)
  | remove (name : String) (recursive : Bool)
  | restore (snapshot : String)
  | reset (clock : Nat → Stamp)

namespace Operation

/-- The change that the operation makes. -/
def change : Operation → Change
  | changeDirectory path => .changeDirectory path
  | createDirectory now name => .createDirectory now name
  | createFile now name text => .createFile now name text
  | touch now name => .touch now name
  | remove name recursive => .remove name recursive
  | restore snapshot => .restore snapshot
  | reset clock => .reset clock

/-- What the operation comes to. -/
def apply (fs : Filesystem) : Operation → Except Fault Filesystem
  | changeDirectory path => fs.changeDirectory path
  | createDirectory now name => fs.createDirectory now name
  | createFile now name text => fs.createFile now name text
  | touch now name => fs.touch now name
  | remove name recursive => fs.remove name recursive
  | restore snapshot => fs.restore snapshot
  | reset clock => .ok (fs.resetAt clock)

/-- All times that the operation reads from the clock satisfy `ok`. -/
def Reads (ok : Stamp → Prop) : Operation → Prop
  | createDirectory now _ | createFile now _ _ | touch now _ => ok now
  | reset clock => ∀ n, ok (clock n)
  | changeDirectory _ | remove _ _ | restore _ => True

end Operation

/-- The filesystem after an operation. -/
def after (fs : Filesystem) (operation : Operation) : Filesystem :=
  operation.change.after fs

/-- The filesystem after some operations, the first of them applied first. -/
def run (fs : Filesystem) (operations : List Operation) : Filesystem :=
  operations.foldl after fs

end PocketShell.Filesystem
