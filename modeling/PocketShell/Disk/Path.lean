import PocketShell.Path

/-!
# Paths of the disk

Paths of the disk are spelled like those of the shell's tree. Before they are shown they are made
absolute, and the steps `.` and `..` are folded away without a look at the disk: a path falls into
components, of which those that are left are put together again.
-/

namespace PocketShell.Disk

/-- The path that starts at `directory`: one that is absolute stays as it is. -/
def join (directory path : String) : String :=
  if Path.isAbsolute path then path
  else if directory.isEmpty || directory.toList.getLast? == some Path.separator then
    directory ++ path
  else directory ++ "/" ++ path

/-! ## Components -/

/-- A part of a path. -/
inductive Component where
  /-- The slash that an absolute path starts with. -/
  | root
  /-- The step that stays in place. -/
  | here
  /-- The step that goes up. -/
  | above
  | name (text : String)
  deriving DecidableEq, Repr

namespace Component

/-- A component as it is written. -/
def text : Component → String
  | root => "/"
  | here => "."
  | above => ".."
  | name text => text

/-- What stands between two slashes, if it counts: nothing at all and `.` do not. -/
def ofPart? (part : String) : Option Component :=
  if part.isEmpty || part = "." then none
  else if part = ".." then some above
  else some (name part)

end Component

/-- The components of what stands behind the start of a path, taken one after another from what is
left of it up to the next slash. -/
def componentsOf : List Char → List Component
  | [] => []
  | c :: rest =>
    let part := (c :: rest).takeWhile (· != Path.separator)
    (Component.ofPart? (String.ofList part)).toList ++
      componentsOf ((c :: rest).drop (part.length + 1))
termination_by text => text.length
decreasing_by
  simp only [List.length_drop, List.length_cons]
  omega

/-- The components of a path. The step that stays in place is one only at the start of a path that
is not absolute. -/
def components (path : String) : List Component :=
  match path.toList with
  | '/' :: rest => .root :: componentsOf rest
  | '.' :: '/' :: rest => .here :: componentsOf rest
  | ['.'] => [.here]
  | text => componentsOf text

/-- The path that some components make, each joined to those before it. -/
def ofComponents (components : List Component) : String :=
  components.foldl (fun path component => join path component.text) ""

/-! ## Folding -/

/-- One more component behind folded ones. To go up takes away a name, and nothing else. -/
def foldComponent (folded : List Component) : Component → List Component
  | .here => folded
  | .above =>
    match folded.getLast? with
    | some (.name _) => folded.dropLast
    | _ => folded
  | component => folded ++ [component]

/-- The components of a path without its steps. -/
def folded (path : String) : List Component :=
  (components path).foldl foldComponent []

/-- An absolute path as it is shown. -/
def shown (path : String) : String :=
  ofComponents (folded path)

/-- A path as it is shown where `current` is the working directory. -/
def display (current path : String) : String :=
  shown (join current path)

end PocketShell.Disk
