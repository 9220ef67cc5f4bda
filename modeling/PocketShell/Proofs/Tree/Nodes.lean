import PocketShell.Proofs.Tree.Sound

/-!
# The nodes of a tree

The nodes of a tree as a list, in the order in which a walk meets them first, and the depth at which
each of them lies.
-/

namespace PocketShell.Node

mutual

/-- A node and all nodes below it, each before those below it. -/
def nodes : Node → List Node
  | .directory name attributes entries => .directory name attributes entries :: nodesBelow entries
  | .file name attributes content => [.file name attributes content]

/-- The nodes of the trees of a directory. -/
def nodesBelow : List (String × Node) → List Node
  | [] => []
  | (_, node) :: rest => node.nodes ++ nodesBelow rest

end

theorem nodes_eq (node : Node) : node.nodes = node :: nodesBelow node.entries := by
  cases node <;> simp [nodes, nodesBelow, entries]

theorem nodesBelow_byName (children : List Node) :
    nodesBelow (byName children) = children.flatMap nodes := by
  induction children with
  | nil => rfl
  | cons child rest ih =>
    rw [List.flatMap_cons, ← ih]
    rfl

/-- A node lies a number of levels below the root. -/
inductive LiesAt (root : Node) : Nat → Node → Prop
  | root : LiesAt root 0 root
  | entry {depth : Nat} {directory node : Node} {key : String} :
    LiesAt root depth directory → (key, node) ∈ directory.entries → LiesAt root (depth + 1) node

/-- Each level down takes one of the levels that a sound tree fills. -/
theorem Sound.of_liesAt {ok : Time.Stamp → Prop} {levels depth : Nat} {root node : Node}
    (h : Sound ok levels root) (hnode : LiesAt root depth node) :
    ∃ below, levels = below + depth ∧ Sound ok below node := by
  induction hnode with
  | root => exact ⟨levels, rfl, h⟩
  | @entry depth directory node key _ hmem ih =>
    obtain ⟨below, rfl, hdirectory⟩ := ih
    cases hdirectory with
    | file => simp [entries] at hmem
    | @directory below _ _ _ _ _ hall => exact ⟨below, by omega, hall _ hmem⟩

/-- A directory in which every directory files its entries under their own names, all of them names
that entries can bear and none of them twice. -/
structure Tidy (root : Node) : Prop where
  isDirectory : root.isDirectory
  filed : ∀ depth directory, root.LiesAt depth directory → Filed directory.entries

theorem Sound.tidy {ok : Time.Stamp → Prop} {levels : Nat} {root : Node} (h : Sound ok levels root)
    (hroot : root.isDirectory) : root.Tidy where
  isDirectory := hroot
  filed depth directory hlies := by
    obtain ⟨below, -, hsound⟩ := h.of_liesAt hlies
    exact hsound.filed

end PocketShell.Node
