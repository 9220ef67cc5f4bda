import PocketShell.Snapshot.Entry

/-!
# From entries to a tree

Decoding goes over the list three times and answers with the first fault of the first pass that
finds one: the links from each entry to its parent, then size and name of each entry, then the
names within each directory, the directory listed last being looked at first. The second pass
leaves one node for each entry, a directory still empty. The third takes the nodes out of their
places and files them in their directories, from the last directory to the first, so that the
children of a directory are complete when it is reached.
-/

namespace PocketShell.Snapshot

/-! ## Links -/

/-- What the links of the entries so far come to. -/
structure Links where
  /-- The depth of each directory. A file, which cannot be a parent, has none. -/
  depths : Array (Option Nat)
  /-- The positions of the children of each entry, in order. -/
  children : Array (Array Nat)

/-- The links of the root alone. -/
def Links.ofRoot : Links :=
  ⟨#[some 0], #[#[]]⟩

/-- The links with that of the next entry, which has to lead to a directory before it. -/
def Links.add (links : Links) (entry : Entry) : Except Fault Links := do
  let position := links.depths.size
  let some parent := entry.parent | throw (.noParent position)
  let some (some above) := links.depths[parent]? | throw (.invalidParent position)
  if entry.isDirectory && Path.maxDepth < above + 1 then throw (.tooDeep position)
  pure {
    depths := links.depths.push (if entry.isDirectory then some (above + 1) else none)
    children := (links.children.modify parent (·.push position)).push #[] }

/-- The links of the root and the entries after it. -/
def Links.ofEntries (rest : List Entry) : Except Fault Links :=
  rest.foldlM Links.add .ofRoot

/-! ## Contents -/

/-- The node of an entry, without children. The size of a file has to be that of its content. -/
def Entry.node (entry : Entry) : Except Fault Node :=
  match entry.body with
  | .directory => pure (.directory entry.name entry.attributes [])
  | .file content size =>
    if size = content.utf8ByteSize then pure (.file entry.name entry.attributes content)
    else throw (.wrongSize entry.name)

/-- The node of an entry after the root, which has to bear the name of an entry. -/
def Entry.namedNode (entry : Entry) : Except Fault Node := do
  let node ← entry.node
  if Path.isName node.name then pure node else throw (.invalidName node.name)

/-! ## Assembly -/

/-- A place for the node of each entry, empty once the node is filed in its directory. -/
abbrev Places := Array (Option Node)

/-- The node at a position, if it is still there. -/
def Places.node? (places : Places) (position : Nat) : Option Node :=
  places[position]?.join

/-- Files the node at `child` in a directory. -/
def adopt (state : Node × Places) (child : Nat) : Except Fault (Node × Places) := do
  let (directory, places) := state
  let some node := places.node? child | throw (.usedTwice child)
  match directory.insert? node with
  | some directory => pure (directory, places.setIfInBounds child none)
  | none => throw (.duplicate node.name directory.name)

/-- Files the children of the entry at `position` in it, if there are any. -/
def gather (children : Array (Array Nat)) (position : Nat) (places : Places) :
    Except Fault Places := do
  let own := children.getD position #[]
  if own.isEmpty then return places
  match places.node? position with
  | some (.directory name attributes entries) =>
    let (directory, places) ←
      own.foldlM adopt (.directory name attributes entries, places.setIfInBounds position none)
    pure (places.setIfInBounds position (some directory))
  | _ => throw (.notDirectory position)

/-- The tree that the nodes in their places form. -/
def assemble (children : Array (Array Nat)) (places : Places) : Except Fault Node := do
  let places ← (List.range places.size).foldrM (gather children) places
  match places.node? 0 with
  | some (.directory name attributes entries) => pure (.directory name attributes entries)
  | _ => throw .rootNotDirectory

/-- Whether an entry can stand first. -/
def isRoot (entry : Entry) : Bool :=
  entry.isDirectory && entry.parent.isNone && entry.name == rootName

/-- The tree that a list of entries describes. -/
def decode (entries : List Entry) : Except Fault Node := do
  let root :: rest := entries | throw .noRoot
  if !isRoot root then throw .noRoot
  let links ← Links.ofEntries rest
  let first ← root.node
  let others ← rest.mapM Entry.namedNode
  assemble links.children ((first :: others).map some).toArray

end PocketShell.Snapshot
