import PocketShell.Path
import PocketShell.Tree.Node

/-!
# Trees as flat lists of entries

A snapshot holds one entry for each node. The first entry is the root; every other entry names its
parent by position, and a parent comes before its children. So neither writing nor reading a
snapshot follows the depth of the tree.
-/

namespace PocketShell.Snapshot

/-- What an entry holds besides what every node shows. -/
inductive Body where
  | directory
  | file (content : String) (size : Nat)
  deriving DecidableEq, Repr

/-- One node of a tree, and the position of its parent. -/
structure Entry where
  parent : Option Nat
  name : String
  attributes : Attributes
  body : Body
  deriving DecidableEq, Repr

namespace Entry

def isDirectory (entry : Entry) : Bool :=
  match entry.body with
  | .directory => true
  | .file .. => false

/-- The entry of a node whose parent stands at the given position. -/
def ofNode (parent : Option Nat) : Node → Entry
  | .directory name attributes _ => ⟨parent, name, attributes, .directory⟩
  | .file name attributes content =>
    ⟨parent, name, attributes, .file content content.utf8ByteSize⟩

/-- The node that an entry describes, with the given children if it is a directory. -/
def withChildren (entry : Entry) (children : List Node) : Node :=
  match entry.body with
  | .directory => .directory entry.name entry.attributes (Node.byName children)
  | .file content _ => .file entry.name entry.attributes content

end Entry

/-- The name of the root. -/
def rootName : String := "/"

/-- What can be wrong with a snapshot. -/
inductive Fault where
  /-- The text is not a list of entries. -/
  | unreadable
  /-- The list does not begin with the root. -/
  | noRoot
  | noParent (position : Nat)
  /-- The parent does not come before the entry, or is a file. -/
  | invalidParent (position : Nat)
  | tooDeep (position : Nat)
  /-- The size of a file is not that of its content. -/
  | wrongSize (name : String)
  | invalidName (name : String)
  /-- Two entries of one directory bear the same name. -/
  | duplicate (name directory : String)
  /-- What has children turns out not to be a directory. -/
  | notDirectory (position : Nat)
  /-- A node is missing from its place when its directory is put together. -/
  | usedTwice (position : Nat)
  /-- The first node is not a directory, or is missing, when all is put together. -/
  | rootNotDirectory
  deriving DecidableEq, Repr

/-- The wording of a fault. -/
def Fault.message : Fault → String
  | unreadable => "<json>"
  | noRoot => "first entry must be a directory named '/'"
  | noParent position => "entry " ++ Text.decimal position ++ " has no parent"
  | invalidParent position => "entry " ++ Text.decimal position ++ " has an invalid parent"
  | tooDeep position => "entry " ++ Text.decimal position ++ " is nested too deeply"
  | wrongSize name => "size of '" ++ name ++ "' does not match its content"
  | invalidName name => "invalid entry name '" ++ name ++ "'"
  | duplicate name directory => "duplicate entry '" ++ name ++ "' in '" ++ directory ++ "'"
  | notDirectory position => "entry " ++ Text.decimal position ++ " is not a directory"
  | usedTwice position => "entry " ++ Text.decimal position ++ " is used twice"
  | rootNotDirectory => "root must be a directory"

end PocketShell.Snapshot
