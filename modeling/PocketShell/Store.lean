import PocketShell.Disk
import PocketShell.Store.Record

/-!
# The store of sessions

The session of each user is a file of its own in the directory of the store. A save writes a second
file and then moves it over the first, so that one which is cut off leaves the last complete session
in place.
-/

namespace PocketShell

/-- Sessions in files of one directory, an absolute path. -/
structure Store where
  directory : String
  deriving DecidableEq, Repr

namespace Store

/-! ## Faults -/

/-- Why a session cannot be saved or loaded. Paths are as they are shown. -/
inductive Fault where
  | invalidUser (user : String)
  | unreadable (path : String)
  | unwritable (path : String)
  | corrupt (path : String)
  | foreign (path owner : String)
  deriving DecidableEq, Repr

/-- The wording of a fault. -/
def Fault.message : Fault → String
  | invalidUser user => "'" ++ user ++ "' cannot be used as a snapshot name"
  | unreadable path => "Failed to read snapshot file: " ++ path
  | unwritable path => "Failed to write snapshot file: " ++ path
  | corrupt path => "Snapshot file is corrupted: " ++ path
  | foreign path owner => "Snapshot file " ++ path ++ " belongs to '" ++ owner ++ "'"

/-! ## Files -/

/-- The file of a user's session. -/
def file (store : Store) (user : String) : String :=
  Disk.join store.directory (user ++ ".snapshot")

/-- The file that becomes a user's session once it is complete. -/
def partialFile (store : Store) (user : String) : String :=
  Disk.join store.directory (user ++ ".snapshot.partial")

/-! ## Saving -/

/-- A step of a save. -/
inductive Step where
  | createDirectories (path : String)
  | write (path : String) (octets : List UInt8)
  | rename (source target : String)
  deriving DecidableEq, Repr

/-- The path that a step is for. -/
def Step.path : Step → String
  | createDirectories path | write path _ | rename _ path => path

/-- The disk after a step, and whether the step failed. -/
def Step.run (disk : Disk) : Step → Disk × Except Disk.Fault Unit
  | createDirectories path => disk.createDirectories path
  | write path octets =>
    match disk.write path octets with
    | .ok after => (after, .ok ())
    | .error fault => (disk, .error fault)
  | rename source target =>
    match disk.rename source target with
    | .ok after => (after, .ok ())
    | .error fault => (disk, .error fault)

/-- Takes steps up to the first that fails. -/
def runSteps (disk : Disk) : List Step → Disk × Except Fault Unit
  | [] => (disk, .ok ())
  | step :: steps =>
    match step.run disk with
    | (after, .ok ()) => runSteps after steps
    | (after, .error _) => (after, .error (.unwritable (Disk.shown step.path)))

/-- The steps that save a record. -/
def saveSteps (store : Store) (record : Record) : List Step :=
  [.createDirectories store.directory,
    .write (store.partialFile record.user) record.write,
    .rename (store.partialFile record.user) (store.file record.user)]

/-- The steps that save a record, for a user whose name a file can bear. -/
def stepsFor (store : Store) (record : Record) : Except Fault (List Step) :=
  if Path.isName record.user then .ok (store.saveSteps record)
  else .error (.invalidUser record.user)

/-- Saves a snapshot as the session of a user. -/
def save (store : Store) (disk : Disk) (record : Record) : Disk × Except Fault Unit :=
  match store.stepsFor record with
  | .ok steps => runSteps disk steps
  | .error fault => (disk, .error fault)

/-! ## Loading -/

/-- The snapshot of a user, given what reading the file of the session comes to. A user without a
file has none. -/
def snapshotOf (store : Store) (user : String) (content : Except Disk.Fault (List UInt8)) :
    Except Fault (Option String) :=
  let path := Disk.shown (store.file user)
  match content with
  | .error .notFound => .ok none
  | .error _ => .error (.unreadable path)
  | .ok octets =>
    match Record.read? octets with
    | none => .error (.corrupt path)
    | some record =>
      if record.user = user then .ok (some record.snapshot)
      else .error (.foreign path record.user)

/-- Loads the last snapshot of a user, if there is one. -/
def load (store : Store) (disk : Disk) (user : String) : Except Fault (Option String) :=
  if Path.isName user then store.snapshotOf user (disk.read (store.file user))
  else .error (.invalidUser user)

end Store

end PocketShell
