import PocketShell.Time.Stamp

/-!
# Directories and files

A tree is a node. A directory maps names to its entries and keeps them in the order in which they
were added; an entry is found by the name it is filed under. What a node shows besides its name
(its two times, permissions and owner) plays no part in finding it.
-/

namespace PocketShell

open Time (Stamp)

/-- What a node shows besides its name. -/
structure Attributes where
  created : Stamp
  updated : Stamp
  permissions : String
  owner : String
  deriving DecidableEq, Repr

/-- An entry of the tree. The entries of a directory are filed under names. -/
inductive Node where
  | directory (name : String) (attributes : Attributes) (entries : List (String × Node))
  | file (name : String) (attributes : Attributes) (content : String)
  deriving Repr

/-- Permissions of a new directory. -/
def directoryPermissions : String := "rwxr-xr-x"

/-- Permissions of a new file. -/
def filePermissions : String := "rw-r--r--"

namespace Node

def name : Node → String
  | directory name _ _ => name
  | file name _ _ => name

def attributes : Node → Attributes
  | directory _ attributes _ => attributes
  | file _ attributes _ => attributes

def isDirectory : Node → Bool
  | directory .. => true
  | file .. => false

/-- The entries of a directory by name, in order. A file has none. -/
def entries : Node → List (String × Node)
  | directory _ _ entries => entries
  | file .. => []

/-- The entries of a directory, in order. -/
def children (node : Node) : List Node :=
  node.entries.map (·.2)

/-- The text in a file. A directory has none. -/
def content : Node → String
  | directory .. => ""
  | file _ _ content => content

/-- The size of a node's text in octets. -/
def size (node : Node) : Nat :=
  node.content.utf8ByteSize

/-- Nodes filed under their own names. -/
def byName (nodes : List Node) : List (String × Node) :=
  nodes.map fun node => (node.name, node)

/-- A directory made at `now`, with the given entries. -/
def newDirectory (now : Stamp) (owner name : String) (children : List Node) : Node :=
  .directory name ⟨now, now, directoryPermissions, owner⟩ (byName children)

/-- A file made at `now`. -/
def newFile (now : Stamp) (owner name content : String) : Node :=
  .file name ⟨now, now, filePermissions, owner⟩ content

/-- The entry with the given name. -/
def child? (node : Node) (name : String) : Option Node :=
  node.entries.lookup name

/-- The entry with the given name, if it is a directory. -/
def subdirectory? (node : Node) (name : String) : Option Node :=
  (node.child? name).filter isDirectory

/-- The entry with the given name, if it is a file. -/
def childFile? (node : Node) (name : String) : Option Node :=
  (node.child? name).filter (!·.isDirectory)

/-- The directory reached from a directory through the named subdirectories. -/
def directoryAt? (root : Node) (segments : List String) : Option Node :=
  segments.foldlM subdirectory? root

/-- The node with its update time set to `now`. -/
def touch (now : Stamp) : Node → Node
  | directory name attributes entries =>
    directory name { attributes with updated := now } entries
  | file name attributes content => file name { attributes with updated := now } content

/-- The file with a new text, updated at `now`. -/
def write (now : Stamp) (text : String) : Node → Node
  | directory name attributes entries => directory name attributes entries
  | file name attributes _ => file name { attributes with updated := now } text

/-- The directory with its entries changed by `f`. -/
def mapEntries (f : List (String × Node) → List (String × Node)) : Node → Node
  | directory name attributes entries => directory name attributes (f entries)
  | file name attributes content => file name attributes content

/-- The directory with a new last entry, unless it has one of that name. -/
def insert? (directory child : Node) : Option Node :=
  if (directory.child? child.name).isSome then none
  else some (directory.mapEntries (· ++ [(child.name, child)]))

/-- The entries with the one of the given name changed by `f`. -/
def modifyNamed (name : String) (f : Node → Node) :
    List (String × Node) → List (String × Node)
  | [] => []
  | (key, node) :: rest =>
    if key = name then (key, f node) :: rest else (key, node) :: modifyNamed name f rest

/-- The tree with the node reached through the named entries changed by `f`. -/
def modifyAt (f : Node → Node) : List String → Node → Node
  | [], node => f node
  | segment :: rest, node => node.mapEntries (modifyNamed segment (modifyAt f rest))

mutual

/-- The number of nodes in a tree. -/
def count : Node → Nat
  | directory _ _ entries => countAll entries + 1
  | file .. => 1

/-- The number of nodes in the trees of a directory. -/
def countAll : List (String × Node) → Nat
  | [] => 0
  | (_, node) :: rest => count node + countAll rest

end

end Node

end PocketShell
