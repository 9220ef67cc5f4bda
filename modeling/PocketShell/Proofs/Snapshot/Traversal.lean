import PocketShell.Proofs.Snapshot.Exact
import PocketShell.Proofs.Snapshot.Preorder
import PocketShell.Proofs.Tree.Ways

/-!
# Encoding walks through the tree in pre-order

Encoding is a loop with a stack of nodes still to be emitted. Each turn takes the last node off the
stack, emits it, and puts its children on the stack in reverse, each with the position of the entry
that has just come out. What the stack stands for at every turn are the entries still to come, so
the loop ends, and the entries are those of the nodes in pre-order, each linked to the entry of the
directory that it is in (`traversed_encode`).
-/

namespace PocketShell.Snapshot

open Node (MeetsAt)

/-! ## The loop -/

/-- Encoding between two turns of its loop: the entries that are out, and the stack of the nodes
still to be emitted, the next of them last, each with the position of its parent. -/
structure Work where
  entries : List Entry
  stack : Pending

namespace Work

/-- The root is out, and its children are on the stack. -/
def start (root : Node) : Work :=
  ⟨[.ofNode none root], (pendingOf 0 root.entries).reverse⟩

/-- One turn of the loop. There is none once the stack is empty. -/
def turn? (work : Work) : Option Work :=
  work.stack.getLast?.map fun (parent, node) =>
    ⟨work.entries ++ [.ofNode (some parent) node],
      work.stack.dropLast ++ (pendingOf work.entries.length node.entries).reverse⟩

/-- The work after some turns. -/
def turns? (work : Work) : Nat → Option Work
  | 0 => some work
  | n + 1 => (work.turns? n).bind turn?

/-- On the stack are the pending nodes, and what is emitted for them is what is missing yet. -/
structure Stands (root : Node) (work : Work) (pending : Pending) : Prop where
  stack : work.stack = pending.reverse
  entries : work.entries ++ emit work.entries.length pending = encode root

variable {root : Node} {work : Work} {pending : Pending}

theorem stands_start (root : Node) : Stands root (start root) (pendingOf 0 root.entries) :=
  ⟨rfl, rfl⟩

theorem turn?_nil (entries : List Entry) : (Work.mk entries []).turn? = none := rfl

/-- A turn emits the first of the pending nodes, and its children come to stand for it. -/
theorem Stands.turn {parent : Nat} {node : Node} {rest : Pending}
    (h : Stands root work ((parent, node) :: rest)) :
    ∃ next, work.turn? = some next ∧
      Stands root next (pendingOf work.entries.length node.entries ++ rest) ∧
      next.entries.length = work.entries.length + 1 := by
  refine ⟨_, by rw [turn?, h.stack, List.getLast?_reverse]; rfl, ⟨?_, ?_⟩, by simp⟩
  · simp
  · have hentries := h.entries
    rw [emit] at hentries
    simpa using hentries

/-- As long as entries are missing, there is a turn. -/
theorem exists_turns? (root : Node) {n : Nat} (h : n < root.count) :
    ∃ work pending, (start root).turns? n = some work ∧ Stands root work pending ∧
      work.entries.length = n + 1 := by
  induction n with
  | zero => exact ⟨_, _, rfl, stands_start root, rfl⟩
  | succ n ih =>
    obtain ⟨work, pending, hturns, hstands, hlength⟩ := ih (Nat.lt_of_succ_lt h)
    cases pending with
    | nil =>
      have hall := congrArg List.length hstands.entries
      rw [emit, List.append_nil, length_encode] at hall
      omega
    | cons first rest =>
      obtain ⟨next, hnext, hstands, hmore⟩ := hstands.turn
      exact ⟨next, _, by rw [turns?, hturns, Option.bind_some, hnext], hstands, by omega⟩

theorem Stands.entries_eq (h : Stands root work pending) :
    work.entries = (encode root).take work.entries.length := by
  rw [← h.entries, List.take_left]

/-- The stack is empty when all entries are out. -/
theorem Stands.stack_eq_nil (h : Stands root work pending)
    (hlength : work.entries.length = root.count) : work.stack = [] := by
  have hnone : emit work.entries.length pending = [] := by
    have hall := congrArg List.length h.entries
    rw [List.length_append, length_encode] at hall
    exact List.eq_nil_of_length_eq_zero (by omega)
  cases pending with
  | nil => exact h.stack
  | cons first rest => rw [emit] at hnone; cases hnone

end Work

/-! ## The entries -/

theorem map_unlinked_listingBelow {entries : List (String × Node)}
    (h : ∀ e ∈ entries, ∀ parent position,
      (listing parent position e.2).map Entry.unlinked = e.2.nodes.map (Entry.ofNode none))
    (parent position : Nat) :
    (listingBelow parent position entries).map Entry.unlinked =
      (Node.nodesBelow entries).map (Entry.ofNode none) := by
  induction entries generalizing position with
  | nil => rfl
  | cons e rest ih =>
    obtain ⟨hfirst, hrest⟩ := List.forall_mem_cons.1 h
    rw [listingBelow, Node.nodesBelow, List.map_append, List.map_append, hfirst, ih hrest]

/-- But for the links, the entries of a tree are those of its nodes. -/
theorem map_unlinked_listing (parent : Option Nat) (position : Nat) (node : Node) :
    (listing parent position node).map Entry.unlinked = node.nodes.map (Entry.ofNode none) := by
  induction node using Node.induction generalizing parent position with
  | file => rfl
  | directory name attributes entries ih =>
    rw [listing, Node.nodes, List.map_cons, List.map_cons, map_unlinked_listingBelow ih]
    rfl

theorem mem_placed {entries : List (String × Node)} {rank : Nat} {e : String × Node}
    (h : entries[rank]? = some e) (position : Nat) :
    (position + Node.countAll (entries.take rank), e.2) ∈ placed position entries := by
  induction entries generalizing rank position with
  | nil => cases h
  | cons first rest ih =>
    cases rank with
    | zero => cases h; exact List.mem_cons_self
    | succ rank =>
      rw [List.take_succ_cons, Node.countAll, ← Nat.add_assoc, placed]
      exact List.mem_cons_of_mem _ (ih h _)

/-- The entries of a tree stand together from the position on at which its root is met. -/
theorem block_of_meetsAt {root node : Node} {way : List Nat} {parent : Option Nat} {position : Nat}
    (h : MeetsAt root way parent position node) : Block (encode root) parent position node := by
  induction h with
  | root => exact block_encode root
  | @child way parent position rank node child hnode hchild ih =>
    obtain ⟨e, hentry, rfl⟩ := Node.exists_entry_of_children hchild
    exact ih.of_placed (mem_placed hentry (position + 1))

/-- What encoding makes of a tree: the entries are those of a walk in pre-order. -/
structure Traversed (root : Node) (entries : List Entry) : Prop where
  /-- Each turn of the loop emits the next entry. -/
  turn : ∀ n < root.count, ∃ stack,
    (Work.start root).turns? n = some ⟨entries.take (n + 1), stack⟩
  /-- The loop ends after as many turns as there are nodes below the root. -/
  ends : (Work.start root).turns? (root.count - 1) = some ⟨entries, []⟩ ∧
    (Work.start root).turns? root.count = none
  /-- But for their links, the entries are those of the nodes in pre-order. -/
  nodes : entries.map Entry.unlinked = root.nodes.map (Entry.ofNode none)
  /-- The nodes are met on their ways, no two of which are the same. -/
  met : ∀ way node, root.nodeAlong? way = some node ↔
    ∃ position : Nat, root.ways[position]? = some way ∧ root.nodes[position]? = some node
  once : root.ways.Nodup
  /-- The first entry alone has no parent. -/
  orphan_iff : ∀ position entry, entries[position]? = some entry →
    (entry.parent = none ↔ position = 0)
  /-- The parent of any other entry is the entry, further in front, of the node that the way to its
  own node passes last. -/
  linked : ∀ (position : Nat) way rank, root.ways[position]? = some (way ++ [rank]) →
    ∃ entry parent, entries[position]? = some entry ∧ entry.parent = some parent ∧
      parent < position ∧ root.ways[parent]? = some way
  /-- The entries of a subtree stand together, that of its root first. -/
  block : ∀ (position : Nat) way node, root.ways[position]? = some way →
    root.nodeAlong? way = some node → ∀ (place : Nat) other, root.ways[place]? = some other →
      (way <+: other ↔ position ≤ place ∧ place < position + node.count)

/-- Every tree is encoded by a walk in pre-order. -/
theorem traversed_encode (root : Node) : Traversed root (encode root) where
  turn n hn := by
    obtain ⟨work, pending, hturns, hstands, hlength⟩ := Work.exists_turns? root hn
    refine ⟨work.stack, ?_⟩
    rw [hturns, ← hlength, ← hstands.entries_eq]
  ends := by
    have hcount := count_eq root
    obtain ⟨work, pending, hturns, hstands, hlength⟩ :=
      Work.exists_turns? root (show root.count - 1 < root.count by omega)
    have hall : work.entries.length = root.count := by omega
    have hdone : work = ⟨encode root, []⟩ := by
      rw [← hstands.stack_eq_nil hall, ← List.take_length (l := encode root), length_encode, ← hall,
        ← hstands.entries_eq]
    have hlast : (Work.start root).turns? (root.count - 1) = some ⟨encode root, []⟩ := by
      rw [hturns, hdone]
    refine ⟨hlast, ?_⟩
    rw [hcount, Nat.add_sub_cancel] at hlast
    rw [hcount, Work.turns?, hlast, Option.bind_some, Work.turn?_nil]
  nodes := by rw [encode_eq, map_unlinked_listing]
  met way node := by
    constructor
    · intro hnode
      obtain ⟨parent, position, hmeets⟩ := Node.exists_meetsAt hnode
      refine ⟨position, hmeets.getElem?_ways, ?_⟩
      rw [Node.getElem?_nodes hmeets.getElem?_ways, hnode]
    · rintro ⟨position, hway, hnode⟩
      rw [← Node.getElem?_nodes hway, hnode]
  once := Node.nodup_ways root
  orphan_iff position entry hentry := by
    have hlt : position < root.ways.length := by
      rw [Node.length_ways, ← length_encode]
      exact (List.getElem?_eq_some_iff.1 hentry).1
    obtain ⟨parent, node, hmeets⟩ :=
      Node.exists_meetsAt_of_getElem? (List.getElem?_eq_getElem hlt)
    cases hentry.symm.trans (block_of_meetsAt hmeets).getElem?_eq
    rw [parent_ofNode]
    exact hmeets.parent_eq_none_iff
  linked position way rank hway := by
    obtain ⟨parent, node, hmeets⟩ := Node.exists_meetsAt_of_getElem? hway
    obtain ⟨above, hparent, hlt, habove⟩ := hmeets.exists_parent
    exact ⟨_, above, (block_of_meetsAt hmeets).getElem?_eq, by rw [parent_ofNode, hparent], hlt,
      habove⟩
  block position way node hway hnode place other hother := by
    obtain ⟨parent, found, hmeets⟩ := Node.exists_meetsAt_of_getElem? hway
    cases hnode.symm.trans hmeets.nodeAlong?_eq
    exact hmeets.prefix_iff hother

end PocketShell.Snapshot
