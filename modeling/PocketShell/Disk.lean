import PocketShell.Disk.Path

/-!
# The disk

Sessions are kept in files. The disk is what its directories and files hold, by the names that lead
to them from the root. Operations look at every directory along a path, unlike those that fold
paths: a step `..` behind a name needs a directory of that name.
-/

namespace PocketShell

/-- What the disk has in one place. -/
inductive Disk.Item where
  | directory
  | file (octets : List UInt8)
  deriving DecidableEq, Repr

/-- The names that lead to a place from the root. -/
abbrev Disk.Place := List String

/-- The items of the disk below its root, each under its place. -/
structure Disk where
  items : List (Disk.Place × Disk.Item)
  deriving Repr

namespace Disk

/-- Why an operation on the disk fails. -/
inductive Fault where
  | notFound
  | alreadyExists
  | notADirectory
  | isADirectory
  | notEmpty
  | nameTooLong
  /-- A path that holds a NUL character, or a directory that would be moved into itself. -/
  | invalid
  deriving DecidableEq, Repr

/-- A disk with nothing but its root. -/
def empty : Disk := ⟨[]⟩

/-- The longest name in octets. -/
def nameLimit : Nat := 255

/-! ## Places -/

/-- What is in a place. -/
def item? (disk : Disk) (place : Place) : Option Item :=
  if place = [] then some .directory else disk.items.lookup place

/-- The disk with an item in a place. -/
def put (disk : Disk) (place : Place) (item : Item) : Disk :=
  ⟨(place, item) :: disk.items.filter (·.1 != place)⟩

/-- The disk without what is in a place or below it. -/
def erase (disk : Disk) (place : Place) : Disk :=
  ⟨disk.items.filter fun entry => !place.isPrefixOf entry.1⟩

/-- The disk with what is in a place or below it in another place. -/
def move (disk : Disk) (source target : Place) : Disk :=
  ⟨disk.items.map fun (place, item) =>
    if source.isPrefixOf place then (target ++ place.drop source.length, item) else (place, item)⟩

/-- Whether there is nothing below a place. -/
def isEmptyAt (disk : Disk) (place : Place) : Bool :=
  disk.items.all fun entry => !(place.isPrefixOf entry.1 && entry.1 != place)

/-- The place that one segment leads to from a directory. -/
def follow (disk : Disk) (here : Place) (segment : String) : Except Fault Place :=
  match disk.item? here with
  | none => .error .notFound
  | some (.file _) => .error .notADirectory
  | some .directory =>
    if segment = "." then .ok here
    else if segment = ".." then .ok here.dropLast
    else if nameLimit < segment.utf8ByteSize then .error .nameTooLong
    else .ok (here ++ [segment])

/-- The place of an absolute path, whose directory exists. -/
def locate (disk : Disk) (path : String) : Except Fault Place :=
  if path.toList.contains '\x00' then .error .invalid
  else (Path.segments path).foldlM disk.follow []

/-! ## Operations -/

/-- The octets of a file. -/
def read (disk : Disk) (path : String) : Except Fault (List UInt8) := do
  match disk.item? (← disk.locate path) with
  | none => .error .notFound
  | some .directory => .error .isADirectory
  | some (.file octets) => .ok octets

/-- Writes a file in place of what it held. -/
def write (disk : Disk) (path : String) (octets : List UInt8) : Except Fault Disk := do
  let place ← disk.locate path
  if disk.item? place = some .directory then .error .isADirectory
  else .ok (disk.put place (.file octets))

/-- Makes the directories that lack along segments. Those made before one that fails stay. -/
def makeAlong (disk : Disk) (here : Place) : List String → Disk × Except Fault Unit
  | [] => (disk, .ok ())
  | segment :: segments =>
    match disk.follow here segment with
    | .error fault => (disk, .error fault)
    | .ok place =>
      match disk.item? place with
      | some .directory => disk.makeAlong place segments
      | some (.file _) => (disk, .error .alreadyExists)
      | none => (disk.put place .directory).makeAlong place segments

/-- Makes the directory of a path and those that lead to it, as far as they lack. -/
def createDirectories (disk : Disk) (path : String) : Disk × Except Fault Unit :=
  if path.toList.contains '\x00' then (disk, .error .invalid)
  else disk.makeAlong [] (Path.segments path)

/-- Whether an item may take the place of another one: a file that of a file, and a directory that
of an empty one. -/
def mayReplace (disk : Disk) (item : Item) (target : Place) : Except Fault Unit :=
  match item, disk.item? target with
  | _, none => .ok ()
  | .file _, some (.file _) => .ok ()
  | .file _, some .directory => .error .isADirectory
  | .directory, some (.file _) => .error .notADirectory
  | .directory, some .directory =>
    if disk.isEmptyAt target then .ok () else .error .notEmpty

/-- Moves an item, in one step, to another path, in place of what was there. -/
def rename (disk : Disk) (source target : String) : Except Fault Disk := do
  let source ← disk.locate source
  let target ← disk.locate target
  match disk.item? source with
  | none => .error .notFound
  | some item =>
    if source = target then .ok disk
    else if source.isPrefixOf target then .error .invalid
    else do
      disk.mayReplace item target
      .ok ((disk.erase target).move source target)

/-- Removes a file, or a directory with all that it holds. -/
def remove (disk : Disk) (path : String) : Except Fault Disk := do
  let place ← disk.locate path
  if (disk.item? place).isNone then .error .notFound else .ok (disk.erase place)

/-! ## Listing -/

/-- The path of an entry below a place, a directory's with a slash behind it. -/
def entryText (above : Place) : Place × Item → String
  | (place, item) =>
    Text.join "/" (place.drop above.length) ++ (if item = .directory then "/" else "")

/-- The items below a directory, sorted. -/
def listing (disk : Disk) (path : String) : List String :=
  match disk.locate path with
  | .error _ => []
  | .ok above =>
    let below := disk.items.filter fun entry =>
      above.isPrefixOf entry.1 && entry.1 != above
    (below.map (entryText above)).mergeSort fun a b => !(b < a)

end Disk

end PocketShell
