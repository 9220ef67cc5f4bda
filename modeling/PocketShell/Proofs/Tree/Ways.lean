import Mathlib.Data.List.Induction
import Mathlib.Data.List.Nodup
import PocketShell.Proofs.Tree.Nodes

/-!
# Ways through a tree

Two nodes of a tree may look the same, but the way to a node is its own: from the root, the rank of
the child that is gone to, over and over. The ways to all nodes in pre-order say which of the nodes
each of them leads to. The ways to what is below a node stand together, right behind the way to the
node.
-/

namespace PocketShell.Node

/-- The node reached by going to the child of the first rank, and so on. -/
def nodeAlong? (root : Node) (way : List Nat) : Option Node :=
  way.foldlM (fun node rank => node.children[rank]?) root

mutual

/-- The ways to a node and to all nodes below it, each before those that go on from it. -/
def ways : Node → List (List Nat)
  | .directory _ _ entries => [] :: waysBelow 0 entries
  | .file .. => [[]]

/-- The ways from a directory to the nodes of the trees in it, the first tree being the child of
the given rank. -/
def waysBelow (rank : Nat) : List (String × Node) → List (List Nat)
  | [] => []
  | (_, node) :: rest => node.ways.map (rank :: ·) ++ waysBelow (rank + 1) rest

end

variable {root node : Node} {way : List Nat}

theorem ways_eq (node : Node) : node.ways = [] :: waysBelow 0 node.entries := by
  cases node <;> rfl

theorem nodeAlong?_cons (root : Node) (rank : Nat) (rest : List Nat) :
    root.nodeAlong? (rank :: rest) = root.children[rank]?.bind (·.nodeAlong? rest) := by
  simp [nodeAlong?]

theorem nodeAlong?_append (root : Node) (way others : List Nat) :
    root.nodeAlong? (way ++ others) = (root.nodeAlong? way).bind (·.nodeAlong? others) := by
  rw [nodeAlong?, List.foldlM_append]
  rfl

theorem nodeAlong?_append_singleton (root : Node) (way : List Nat) (rank : Nat) :
    root.nodeAlong? (way ++ [rank]) = (root.nodeAlong? way).bind (·.children[rank]?) := by
  simp [nodeAlong?]

theorem exists_entry_of_children {node child : Node} {rank : Nat}
    (h : node.children[rank]? = some child) : ∃ e, node.entries[rank]? = some e ∧ e.2 = child := by
  rwa [children, List.getElem?_map, Option.map_eq_some_iff] at h

/-! ## Ways and nodes -/

theorem map_nodeAlong?_waysBelow {entries : List (String × Node)}
    (h : ∀ e ∈ entries, e.2.ways.map e.2.nodeAlong? = e.2.nodes.map some) {before : List Node}
    (hroot : root.children = before ++ entries.map (·.2)) :
    (waysBelow before.length entries).map root.nodeAlong? = (nodesBelow entries).map some := by
  induction entries generalizing before with
  | nil => rfl
  | cons e rest ih =>
    obtain ⟨hfirst, hrest⟩ := List.forall_mem_cons.1 h
    have hchild : root.children[before.length]? = some e.2 := by simp [hroot]
    have hthere : root.nodeAlong? ∘ (before.length :: ·) = e.2.nodeAlong? := by
      funext way
      rw [Function.comp_apply, nodeAlong?_cons, hchild, Option.bind_some]
    have hbehind : (waysBelow (before ++ [e.2]).length rest).map root.nodeAlong? =
        (nodesBelow rest).map some := ih hrest (by simp [hroot])
    rw [List.length_append, List.length_singleton] at hbehind
    rw [waysBelow, nodesBelow, List.map_append, List.map_append, List.map_map, hthere, hfirst,
      hbehind]

/-- The ways lead to the nodes, in the same order. -/
theorem map_nodeAlong?_ways (root : Node) :
    root.ways.map root.nodeAlong? = root.nodes.map some := by
  induction root using Node.induction with
  | file => rfl
  | directory name attributes entries ih =>
    have hbelow := @map_nodeAlong?_waysBelow (.directory name attributes entries) entries ih [] rfl
    rw [ways, nodes, List.map_cons, List.map_cons]
    exact congrArg (some (directory name attributes entries) :: ·) hbelow

theorem getElem?_nodes {position : Nat} (h : root.ways[position]? = some way) :
    root.nodes[position]? = root.nodeAlong? way := by
  have hmap := congrArg (·[position]?) (map_nodeAlong?_ways root)
  simp only [List.getElem?_map, h, Option.map_some] at hmap
  cases hnode : root.nodes[position]? with
  | none => simp [hnode] at hmap
  | some node => simpa [hnode] using hmap.symm

/-! ## Each way once -/

theorem exists_cons_of_mem_waysBelow {rank : Nat} {entries : List (String × Node)}
    (h : way ∈ waysBelow rank entries) : ∃ first rest, way = first :: rest ∧ rank ≤ first := by
  induction entries generalizing rank with
  | nil => cases h
  | cons e others ih =>
    rw [waysBelow, List.mem_append] at h
    rcases h with h | h
    · obtain ⟨rest, -, rfl⟩ := List.mem_map.1 h
      exact ⟨rank, rest, rfl, Nat.le_refl rank⟩
    · obtain ⟨first, rest, rfl, hle⟩ := ih h
      exact ⟨first, rest, rfl, Nat.le_of_succ_le hle⟩

theorem nodup_waysBelow {entries : List (String × Node)} (h : ∀ e ∈ entries, e.2.ways.Nodup)
    (rank : Nat) : (waysBelow rank entries).Nodup := by
  induction entries generalizing rank with
  | nil => exact List.nodup_nil
  | cons e rest ih =>
    obtain ⟨hfirst, hrest⟩ := List.forall_mem_cons.1 h
    refine List.nodup_append.2 ⟨hfirst.map List.cons_injective, ih hrest _, ?_⟩
    -- what is behind goes to a child of a higher rank
    rintro way hmem _ hbehind rfl
    obtain ⟨way, -, rfl⟩ := List.mem_map.1 hmem
    obtain ⟨first, others, heq, hle⟩ := exists_cons_of_mem_waysBelow hbehind
    obtain ⟨rfl, -⟩ := List.cons.inj heq
    omega

theorem nodup_ways (root : Node) : root.ways.Nodup := by
  induction root using Node.induction with
  | file => exact List.nodup_singleton _
  | directory name attributes entries ih =>
    refine List.nodup_cons.2 ⟨fun hmem => ?_, nodup_waysBelow ih 0⟩
    obtain ⟨first, rest, heq, -⟩ := exists_cons_of_mem_waysBelow hmem
    cases heq

/-! ## Where the ways stand -/

theorem length_waysBelow {entries : List (String × Node)}
    (h : ∀ e ∈ entries, e.2.ways.length = e.2.count) (rank : Nat) :
    (waysBelow rank entries).length = countAll entries := by
  induction entries generalizing rank with
  | nil => rfl
  | cons e rest ih =>
    obtain ⟨hfirst, hrest⟩ := List.forall_mem_cons.1 h
    rw [waysBelow, List.length_append, List.length_map, hfirst, ih hrest, countAll]

theorem length_ways (root : Node) : root.ways.length = root.count := by
  induction root using Node.induction with
  | file => rfl
  | directory name attributes entries ih =>
    rw [ways, List.length_cons, length_waysBelow ih, count]

/-- The ways to the tree of one child stand together, behind those to the children before it. -/
theorem exists_waysBelow_eq {entries : List (String × Node)} {rank : Nat} {e : String × Node}
    (h : entries[rank]? = some e) (first : Nat) : ∃ before after,
    waysBelow first entries = before ++ e.2.ways.map ((first + rank) :: ·) ++ after ∧
      before.length = countAll (entries.take rank) := by
  induction entries generalizing rank first with
  | nil => cases h
  | cons other rest ih =>
    cases rank with
    | zero =>
      cases h
      exact ⟨[], waysBelow (first + 1) rest, rfl, rfl⟩
    | succ rank =>
      obtain ⟨before, after, heq, hlength⟩ := ih h (first + 1)
      refine ⟨other.2.ways.map (first :: ·) ++ before, after, ?_, ?_⟩
      · rw [waysBelow, heq, Nat.add_right_comm]
        simp only [List.append_assoc, Nat.add_assoc]
      · rw [List.length_append, List.length_map, length_ways, hlength, List.take_succ_cons,
          countAll]

/-- Counted from the root on, a walk in pre-order meets the node at the end of a way at this
position, and its parent, unless it is the root, at that. -/
inductive MeetsAt (root : Node) : List Nat → Option Nat → Nat → Node → Prop
  | root : MeetsAt root [] none 0 root
  | child {way : List Nat} {parent : Option Nat} {position rank : Nat} {node child : Node}
    (hnode : MeetsAt root way parent position node) (hchild : node.children[rank]? = some child) :
    MeetsAt root (way ++ [rank]) (some position)
      (position + 1 + countAll (node.entries.take rank)) child

theorem exists_meetsAt (h : root.nodeAlong? way = some node) :
    ∃ parent position, MeetsAt root way parent position node := by
  induction way using List.reverseRecOn generalizing node with
  | nil => cases h; exact ⟨none, 0, .root⟩
  | append_singleton way rank ih =>
    rw [nodeAlong?_append_singleton, Option.bind_eq_some_iff] at h
    obtain ⟨directory, hdirectory, hchild⟩ := h
    obtain ⟨parent, position, hmeets⟩ := ih hdirectory
    exact ⟨some position, _, .child hmeets hchild⟩

namespace MeetsAt

variable {parent : Option Nat} {position : Nat}

theorem nodeAlong?_eq (h : MeetsAt root way parent position node) :
    root.nodeAlong? way = some node := by
  induction h with
  | root => rfl
  | child hnode hchild ih => rw [nodeAlong?_append_singleton, ih, Option.bind_some, hchild]

/-- From a position on, the ways go to the node that is met there and then to those below it. -/
theorem ways_eq (h : MeetsAt root way parent position node) : ∃ before after,
    root.ways = before ++ node.ways.map (way ++ ·) ++ after ∧ before.length = position := by
  induction h with
  | root => exact ⟨[], [], by simp, rfl⟩
  | @child way parent position rank node child hnode hchild ih =>
    obtain ⟨before, after, hways, hlength⟩ := ih
    obtain ⟨e, hentry, rfl⟩ := exists_entry_of_children hchild
    obtain ⟨first, last, hbelow, hfirst⟩ := exists_waysBelow_eq hentry 0
    refine ⟨before ++ (way :: first.map (way ++ ·)), last.map (way ++ ·) ++ after, ?_, ?_⟩
    · rw [hways, Node.ways_eq, hbelow]
      simp [Function.comp_def]
    · rw [List.length_append, hlength, List.length_cons, List.length_map, hfirst]
      omega

theorem getElem?_ways (h : MeetsAt root way parent position node) :
    root.ways[position]? = some way := by
  obtain ⟨before, after, hways, rfl⟩ := h.ways_eq
  rw [hways, Node.ways_eq]
  simp

theorem parent_eq_none_iff (h : MeetsAt root way parent position node) :
    parent = none ↔ position = 0 := by
  cases h with
  | root => simp
  | child hnode hchild => simp

/-- The parent of a node is met where the way without its last rank ends. -/
theorem exists_parent {rank : Nat} (h : MeetsAt root (way ++ [rank]) parent position node) :
    ∃ above, parent = some above ∧ above < position ∧ root.ways[above]? = some way := by
  generalize hfull : way ++ [rank] = full at h
  cases h with
  | root => simp at hfull
  | @child _ _ above _ _ _ hnode hchild =>
    obtain ⟨rfl, -⟩ := List.append_inj' hfull rfl
    exact ⟨above, rfl, by omega, hnode.getElem?_ways⟩

end MeetsAt

theorem mem_ways_iff : way ∈ root.ways ↔ ∃ node, root.nodeAlong? way = some node := by
  constructor
  · intro hmem
    have hsome := List.mem_map_of_mem (f := root.nodeAlong?) hmem
    rw [map_nodeAlong?_ways] at hsome
    obtain ⟨node, -, hnode⟩ := List.mem_map.1 hsome
    exact ⟨node, hnode.symm⟩
  · rintro ⟨node, hnode⟩
    obtain ⟨parent, position, hmeets⟩ := exists_meetsAt hnode
    exact List.mem_of_getElem? hmeets.getElem?_ways

theorem position_inj {position place : Nat} (h : root.ways[position]? = some way)
    (h' : root.ways[place]? = some way) : position = place :=
  (List.getElem?_inj (List.getElem?_eq_some_iff.1 h).1 (nodup_ways root)).1 (h.trans h'.symm)

/-- At each position one node is met. -/
theorem exists_meetsAt_of_getElem? {position : Nat} (h : root.ways[position]? = some way) :
    ∃ parent node, MeetsAt root way parent position node := by
  obtain ⟨node, hnode⟩ := mem_ways_iff.1 (List.mem_of_getElem? h)
  obtain ⟨parent, place, hmeets⟩ := exists_meetsAt hnode
  obtain rfl := position_inj h hmeets.getElem?_ways
  exact ⟨parent, node, hmeets⟩

/-- The ways that go on from a way are those at the positions from its own on, as many as there are
nodes in the tree that it leads to. -/
theorem MeetsAt.prefix_iff {parent : Option Nat} {position place : Nat} {other : List Nat}
    (h : MeetsAt root way parent position node) (hother : root.ways[place]? = some other) :
    way <+: other ↔ position ≤ place ∧ place < position + node.count := by
  obtain ⟨before, after, hways, rfl⟩ := h.ways_eq
  constructor
  · rintro ⟨rest, rfl⟩
    obtain ⟨below, hbelow⟩ := mem_ways_iff.1 (List.mem_of_getElem? hother)
    rw [nodeAlong?_append, h.nodeAlong?_eq, Option.bind_some] at hbelow
    obtain ⟨index, hindex, hrest⟩ := List.getElem_of_mem (mem_ways_iff.2 ⟨below, hbelow⟩)
    have hplace : root.ways[before.length + index]? = some (way ++ rest) := by
      rw [hways, List.append_assoc, List.getElem?_append_right (Nat.le_add_right _ _),
        Nat.add_sub_cancel_left, List.getElem?_append_left (by rwa [List.length_map]),
        List.getElem?_map, List.getElem?_eq_getElem hindex, hrest, Option.map_some]
    obtain rfl := position_inj hother hplace
    rw [length_ways] at hindex
    omega
  · rintro ⟨hle, hlt⟩
    have hindex : place - before.length < (node.ways.map (way ++ ·)).length := by
      rw [List.length_map, length_ways]
      omega
    rw [hways, List.append_assoc, List.getElem?_append_right hle, List.getElem?_append_left hindex,
      List.getElem?_map, Option.map_eq_some_iff] at hother
    obtain ⟨rest, -, rfl⟩ := hother
    exact List.prefix_append way rest

end PocketShell.Node
