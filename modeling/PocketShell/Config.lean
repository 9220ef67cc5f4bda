import PocketShell.Disk
import PocketShell.Yaml.Document

/-!
# The config file

The root directory may hold a config file, a YAML mapping in which each key may be left out. Only
the first document of the file counts, and other keys are passed over.
-/

namespace PocketShell

/-- The settings of a session. -/
structure Config where
  user : String
  /-- The directory of the store, from the root directory. -/
  storage : String
  /-- Whether the session is saved at its end. -/
  autosave : Bool
  deriving DecidableEq, Repr

namespace Config

/-- The settings without a config file. -/
def default : Config := ⟨"user", ".minicore", true⟩

/-- The name of the config file. -/
def fileName : String := "minicore.yaml"

/-! ## Faults -/

/-- What the value of a key can be. -/
inductive Kind where
  | string
  | boolean
  deriving DecidableEq, Repr

/-- The name of a kind of value, with its article. -/
def Kind.text : Kind → String
  | string => "a string"
  | boolean => "a boolean"

/-- Why a config file is refused. Paths are as they are shown. -/
inductive Fault where
  | unreadable (path : String)
  | notUtf8 (path : String)
  | notYaml
  | notAMapping
  | invalidValue (key : String) (kind : Kind)
  deriving DecidableEq, Repr

/-- The wording of a fault. -/
def Fault.message : Fault → String
  | unreadable path => "Failed to read the config file: " ++ path
  | notUtf8 path => "Config file is not valid UTF-8: " ++ path
  | notYaml => "Failed to parse the config file"
  | notAMapping => "Top level of config should be a map"
  | invalidValue key kind => "'" ++ key ++ "' should be " ++ kind.text

/-! ## Reading -/

/-- The text of a key, or another one if the key is left out. -/
def textOr (pairs : List (Yaml.Node × Yaml.Node)) (key other : String) : Except Fault String :=
  match Yaml.Node.lookup? key pairs with
  | none => .ok other
  | some (.scalar (.string text)) => .ok text
  | some _ => .error (.invalidValue key .string)

/-- The boolean of a key, or another one if the key is left out. -/
def booleanOr (pairs : List (Yaml.Node × Yaml.Node)) (key : String) (other : Bool) :
    Except Fault Bool :=
  match Yaml.Node.lookup? key pairs with
  | none => .ok other
  | some (.scalar (.boolean value)) => .ok value
  | some _ => .error (.invalidValue key .boolean)

/-- The settings in the pairs of a mapping. -/
def ofPairs (pairs : List (Yaml.Node × Yaml.Node)) : Except Fault Config := do
  let user ← textOr pairs "user" default.user
  let storage ← textOr pairs "storage" default.storage
  let autosave ← booleanOr pairs "autosave" default.autosave
  pure ⟨user, storage, autosave⟩

/-- The settings in a text. -/
def ofText (text : String) : Except Fault Config :=
  match Yaml.read? text with
  | none => .error .notYaml
  | some [] => .ok default
  | some (.mapping pairs :: _) => ofPairs pairs
  | some (_ :: _) => .error .notAMapping

/-- The config file of a root directory, an absolute path. -/
def file (root : String) : String :=
  Disk.join root fileName

/-- The settings of a root directory, given what reading its config file comes to. -/
def ofContent (root : String) (content : Except Disk.Fault (List UInt8)) : Except Fault Config :=
  match content with
  | .error .notFound => .ok default
  | .error _ => .error (.unreadable (Disk.shown (file root)))
  | .ok octets =>
    match Text.ofUtf8? octets with
    | none => .error (.notUtf8 (Disk.shown (file root)))
    | some text => ofText text

/-- The settings of a root directory. -/
def read (disk : Disk) (root : String) : Except Fault Config :=
  ofContent root (disk.read (file root))

end Config

end PocketShell
