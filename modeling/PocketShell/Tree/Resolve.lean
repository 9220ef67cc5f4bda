import PocketShell.Path
import PocketShell.Tree.Node

/-!
# From paths to directories

A path is walked one segment at a time from the root or the working directory. Every named segment
has to be a directory of the tree when it is reached, also one that a later `..` leaves again; `..`
at the root stays there.
-/

namespace PocketShell.Node

/-- One step of a walk: the segments of the directory reached from the one at `here`. -/
def step? (root : Node) (here : List String) (segment : String) : Option (List String) :=
  if segment = "." then some here
  else if segment = ".." then some here.dropLast
  else do
    let directory ← root.directoryAt? here
    let _ ← directory.subdirectory? segment
    pure (here ++ [segment])

/-- The segments of the directory that a path names, seen from the directory at `working`. -/
def resolve? (root : Node) (working : List String) (path : String) : Option (List String) :=
  (Path.segments path).foldlM root.step? (if Path.isAbsolute path then [] else working)

end PocketShell.Node
