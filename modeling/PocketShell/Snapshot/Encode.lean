import PocketShell.Snapshot.Entry

/-!
# From a tree to its entries

The entries come out of a work list: the node at its head is emitted, and its children take its
place. The list is the pre-order of the tree, and it is never longer than the tree is wide on the
way to the node at hand.
-/

namespace PocketShell.Snapshot

/-- Nodes still to be emitted, each with the position of its parent. -/
abbrev Pending := List (Nat × Node)

/-- The entries of a directory at `position`, ready to be emitted. -/
def pendingOf (position : Nat) (entries : List (String × Node)) : Pending :=
  entries.map fun (_, node) => (position, node)

/-- The number of nodes in the pending trees. -/
def Pending.count : Pending → Nat
  | [] => 0
  | (_, node) :: rest => node.count + Pending.count rest

theorem count_pendingOf (position : Nat) (entries : List (String × Node)) :
    Pending.count (pendingOf position entries) = Node.countAll entries := by
  induction entries with
  | nil => rfl
  | cons entry rest ih =>
    simp only [pendingOf, Pending.count, List.map_cons, Node.countAll] at ih ⊢
    omega

theorem Pending.count_append (xs ys : Pending) :
    Pending.count (xs ++ ys) = Pending.count xs + Pending.count ys := by
  induction xs with
  | nil => simp [Pending.count]
  | cons first rest ih =>
    simp only [List.cons_append, Pending.count]
    omega

theorem countAll_entries_lt (node : Node) : Node.countAll node.entries < node.count := by
  cases node <;> simp [Node.entries, Node.count, Node.countAll]

/-- The entries of the pending nodes and of all below them, the first at `position`. -/
def emit (position : Nat) (pending : Pending) : List Entry :=
  match pending with
  | [] => []
  | (parent, node) :: rest =>
    Entry.ofNode (some parent) node ::
      emit (position + 1) (pendingOf position node.entries ++ rest)
termination_by pending.count
decreasing_by
  rw [Pending.count_append, count_pendingOf]
  have := countAll_entries_lt node
  simp only [Pending.count]
  omega

/-- The entries of a tree, its root first. -/
def encode (root : Node) : List Entry :=
  Entry.ofNode none root :: emit 1 (pendingOf 0 root.entries)

end PocketShell.Snapshot
