import PocketShell.Change
import PocketShell.Filesystem.Fault
import PocketShell.Snapshot.Text
import PocketShell.Tree.Resolve

/-!
# The tree with its working directory

A filesystem is a tree, a working directory in it and the user who owns what is made. Entries are
made, changed and removed in the working directory only; paths that lead elsewhere serve to change
to another working directory, to list one and to read a file. An operation that reads the clock is
given the time, or the times one after another if it reads the clock more than once.
-/

namespace PocketShell

open Time (Stamp)

/-- A tree, the segments of the working directory, and the user. -/
structure Filesystem where
  root : Node
  working : List String
  user : String
  deriving Repr

namespace Filesystem

/-! ## The initial tree -/

/-- Owner of the root and of the standard directories. -/
def rootOwner : String := "root"

/-- The directories of the initial tree, in order. -/
def standardDirectories : List String := ["bin", "etc", "home", "tmp", "usr", "var"]

/-- Name of the file in a new home. -/
def welcomeName : String := "welcome.txt"

/-- Text of the file in a new home. -/
def welcomeText : String :=
  "Welcome to Mini Core Web!\nType \"help\" to see available commands."

/-- The home of a user: a directory with the welcome file. -/
def home (clock : Nat → Stamp) (user : String) : Node :=
  .newDirectory (clock 0) user user [.newFile (clock 1) user welcomeName welcomeText]

/-- A standard directory, given by its name and its place among them. That of the homes has the
user's in it. -/
def standardDirectory (clock : Nat → Stamp) (user : String) (place : String × Nat) : Node :=
  .newDirectory (clock (place.2 + 3)) rootOwner place.1
    (if place.1 = "home" then [home clock user] else [])

/-- The tree of a user without a saved session. Each of its nodes is made at a time of its own, the
home and its file before the root and the standard directories. -/
def initialTree (clock : Nat → Stamp) (user : String) : Node :=
  .newDirectory (clock 2) rootOwner Snapshot.rootName <|
    standardDirectories.zipIdx.map (standardDirectory clock user)

/-- How often the clock is read for the initial tree: once for each of its nodes. -/
def startReadings : Nat := standardDirectories.length + 3

/-- The filesystem of a user without a saved session. -/
def startAt (clock : Nat → Stamp) (user : String) : Filesystem :=
  ⟨initialTree clock user, [], user⟩

/-- The filesystem of a user without a saved session, made while the clock stands at `now`. -/
def start (now : Stamp) (user : String) : Filesystem :=
  startAt (fun _ => now) user

/-! ## Reading -/

/-- The path of the user's home. -/
def homePath (fs : Filesystem) : String :=
  "/home/" ++ fs.user

/-- The path of the working directory. -/
def currentPath (fs : Filesystem) : String :=
  Path.render fs.working

/-- The segments of the directory that a path names. -/
def segmentsOf (fs : Filesystem) (path : String) : Except Fault (List String) :=
  match fs.root.resolve? fs.working path with
  | some segments => pure segments
  | none => throw (.notFound path)

/-- The directory that a path names. -/
def directory (fs : Filesystem) (path : String) : Except Fault Node := do
  match fs.root.directoryAt? (← fs.segmentsOf path) with
  | some node => pure node
  | none => throw (.notFound path)

/-- The entries of the directory that a path names, of the working directory if there is none. -/
def list (fs : Filesystem) (path : Option String) : Except Fault (List Node) :=
  return (← fs.directory (path.getD ".")).children

/-- The file that a path names. -/
def file (fs : Filesystem) (path : String) : Except Fault Node := do
  let some (parent, name) := Path.splitLast? path | throw (.notFound path)
  let .ok directory := fs.directory parent | throw (.notFound path)
  match directory.childFile? name with
  | some node => pure node
  | none => throw (.notFound path)

/-- The working directory. -/
def workingDirectory (fs : Filesystem) : Except Fault Node :=
  match fs.root.directoryAt? fs.working with
  | some node => pure node
  | none => throw (.notFound fs.currentPath)

/-! ## Changes -/

/-- The filesystem with the entries of the working directory changed by `f`. -/
def changeEntries (fs : Filesystem) (f : List (String × Node) → List (String × Node)) :
    Filesystem :=
  { fs with root := fs.root.modifyAt (Node.mapEntries f) fs.working }

/-- The filesystem with one entry of the working directory changed by `f`. -/
def changeEntry (fs : Filesystem) (name : String) (f : Node → Node) : Filesystem :=
  fs.changeEntries (Node.modifyNamed name f)

/-- The filesystem with the initial tree, and the root as its working directory. -/
def resetAt (fs : Filesystem) (clock : Nat → Stamp) : Filesystem :=
  startAt clock fs.user

/-- The filesystem with the initial tree, made while the clock stands at `now`. -/
def reset (fs : Filesystem) (now : Stamp) : Filesystem :=
  fs.resetAt fun _ => now

/-- Refuses a name that no entry can bear. -/
def checkName (name : String) : Except Fault Unit :=
  if Path.isName name then pure () else throw (.invalidName name)

/-- Something that changes a filesystem in place, and may fail. -/
abbrev Change : Type :=
  PocketShell.Change Filesystem Fault Unit

namespace Change

open PocketShell.Change (reading)

/-- Goes to another working directory. -/
def changeDirectory (path : String) : Change := do
  let working ← reading (·.segmentsOf path)
  modify fun fs => { fs with working }

/-- Adds a last entry to the working directory, which may not have one of that name. -/
def insert (node : Node) : Change := do
  let directory ← reading workingDirectory
  match directory.insert? node with
  | some changed =>
    modify fun fs => { fs with root := fs.root.modifyAt (fun _ => changed) fs.working }
  | none => throw (.alreadyExists node.name)

/-- Makes an empty directory. -/
def createDirectory (now : Stamp) (name : String) : Change := do
  reading fun _ => checkName name
  if Path.maxDepth ≤ (← get).working.length then throw (.tooDeep name)
  else insert (.newDirectory now (← get).user name [])

/-- Makes a file, or gives an existing one a new text. -/
def createFile (now : Stamp) (name text : String) : Change := do
  reading fun _ => checkName name
  let directory ← reading workingDirectory
  match directory.child? name with
  | some (.file ..) => modify (·.changeEntry name (Node.write now text))
  | some (.directory ..) => throw (.isADirectory name)
  | none => insert (.newFile now (← get).user name text)

/-- Sets the update time of an entry, or makes an empty file. -/
def touch (now : Stamp) (name : String) : Change := do
  reading fun _ => checkName name
  let directory ← reading workingDirectory
  match directory.child? name with
  | some _ => modify (·.changeEntry name (Node.touch now))
  | none => insert (.newFile now (← get).user name "")

/-- Removes an entry and all below it; a directory with entries only if `recursive`. -/
def remove (name : String) (recursive : Bool) : Change := do
  let directory ← reading workingDirectory
  match directory.child? name with
  | none => throw (.notFound name)
  | some node =>
    if !recursive && !node.entries.isEmpty then throw (.notEmpty name)
    else modify (·.changeEntries (List.eraseP (·.1 == name)))

/-- Puts the tree of a snapshot in place of the whole tree, and goes to the root. -/
def restore (snapshot : String) : Change := do
  match Snapshot.toTree snapshot with
  | .ok root =>
    modify fun fs => { fs with root }
    modify fun fs => { fs with working := [] }
  | .error reason => throw (.malformedSnapshot reason)

/-- Puts the initial tree in place of the whole tree, and goes to the root. -/
def reset (clock : Nat → Stamp) : Change :=
  modify (·.resetAt clock)

end Change

/-! ### What changes come to -/

section
variable (fs : Filesystem)

def changeDirectory (path : String) : Except Fault Filesystem :=
  (Change.changeDirectory path).result fs

def insert (node : Node) : Except Fault Filesystem :=
  (Change.insert node).result fs

def createDirectory (now : Stamp) (name : String) : Except Fault Filesystem :=
  (Change.createDirectory now name).result fs

def createFile (now : Stamp) (name text : String) : Except Fault Filesystem :=
  (Change.createFile now name text).result fs

def touch (now : Stamp) (name : String) : Except Fault Filesystem :=
  (Change.touch now name).result fs

def remove (name : String) (recursive : Bool) : Except Fault Filesystem :=
  (Change.remove name recursive).result fs

def restore (snapshot : String) : Except Fault Filesystem :=
  (Change.restore snapshot).result fs

end

/-! ## Saving -/

/-- The snapshot of the tree. -/
def serialize (fs : Filesystem) : Except Fault String :=
  match Snapshot.ofTree? fs.root with
  | some text => pure text
  | none => throw .unwritableTime

end Filesystem

end PocketShell
