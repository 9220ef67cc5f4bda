import PocketShell.Text

/-!
# Paths of the shell's tree

A path is text. Its segments are the non-empty stretches between slashes; a leading slash makes it
absolute. The segment `.` stays in place and `..` goes up, so neither can be the name of an entry.
-/

namespace PocketShell.Path

/-- The character between segments. -/
def separator : Char := '/'

/-- Deepest nesting of directories below the root. -/
def maxDepth : Nat := 1024

/-- Whether the path starts at the root. -/
def isAbsolute (path : String) : Bool :=
  Text.beginsWith path separator

/-- The non-empty segments of a path, in order. -/
def segments (path : String) : List String :=
  Text.fields (· == separator) path

/-- The absolute path with the given segments. The root is `/`. -/
def render (segments : List String) : String :=
  "/" ++ Text.join "/" segments

/-- The part of a path before its last segment, and that segment. Slashes after the last segment
are dropped; a path without segments has no last one. -/
def splitLast? (path : String) : Option (String × String) :=
  let backwards := path.toList.reverse.dropWhile (· == separator)
  let name := (backwards.takeWhile (· != separator)).reverse
  let parent := (backwards.dropWhile (· != separator)).reverse
  if name.isEmpty then none else some (String.ofList parent, String.ofList name)

/-- Whether an entry can bear the name: one segment that is not a step. -/
def isName (name : String) : Bool :=
  !name.toList.isEmpty && !name.toList.contains separator && name != "." && name != ".."

end PocketShell.Path
