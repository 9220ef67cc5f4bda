import PocketShell.Snapshot.Decode
import Mathlib.Data.List.Basic

/-!
# Lists of entries that describe a tree

Which lists are snapshots, and of which tree, is said here by the links alone: a position has the
positions after it that name it as their parent for its children, and the tree at a position is its
entry with the trees at its children, in the order of the list. The list may have any order in which
parents come before their children.
-/

namespace PocketShell.Snapshot

/-- The positions after `position` of the entries that name it as their parent, in order. -/
def childrenOf (entries : List Entry) (position : Nat) : List Nat :=
  (entries.drop (position + 1)).findIdxs (·.parent == some position) (position + 1)

theorem mem_childrenOf {entries : List Entry} {position child : Nat} :
    child ∈ childrenOf entries position ↔
      position < child ∧ ∃ entry, entries[child]? = some entry ∧ entry.parent = some position := by
  simp only [childrenOf, List.mem_findIdxs_iff_getElem_sub_pos, List.getElem_drop, beq_iff_eq,
    List.length_drop]
  constructor
  · rintro ⟨hlt, hbound, hparent⟩
    have hindex : position + 1 + (child - (position + 1)) = child := by omega
    have hchild : child < entries.length := by omega
    refine ⟨hlt, entries[child], List.getElem?_eq_getElem hchild, ?_⟩
    simpa only [hindex] using hparent
  · rintro ⟨hlt, entry, hentry, hparent⟩
    obtain ⟨hbound, rfl⟩ := List.getElem?_eq_some_iff.1 hentry
    have hindex : position + 1 + (child - (position + 1)) = child := by omega
    refine ⟨hlt, by omega, ?_⟩
    simpa only [hindex] using hparent

theorem lt_of_mem_childrenOf {entries : List Entry} {position child : Nat}
    (h : child ∈ childrenOf entries position) : position < child ∧ child < entries.length := by
  obtain ⟨hlt, entry, hentry, -⟩ := mem_childrenOf.1 h
  exact ⟨hlt, (List.getElem?_eq_some_iff.1 hentry).1⟩

theorem pairwise_childrenOf (entries : List Entry) (position : Nat) :
    (childrenOf entries position).Pairwise (· < ·) :=
  List.pairwise_findIdxs

/-- The number of links from a position up to an entry without a parent before it. -/
def depth (entries : List Entry) (position : Nat) : Nat :=
  match entries[position]?.bind (·.parent) with
  | none => 0
  | some parent => if parent < position then depth entries parent + 1 else 0
termination_by position

/-- The tree at a position: its entry, and below it the trees at its children. -/
def subtree (entries : List Entry) (position : Nat) (h : position < entries.length) : Node :=
  entries[position].withChildren <|
    (childrenOf entries position).pmap (fun child hc => subtree entries child hc.2)
      fun _ => lt_of_mem_childrenOf
termination_by entries.length - position
decreasing_by have := hc.1; omega

/-- The trees at the children of a position, in order. -/
def subtreesBelow (entries : List Entry) (position : Nat) : List Node :=
  (childrenOf entries position).pmap (fun child hc => subtree entries child hc.2)
    fun _ => lt_of_mem_childrenOf

/-- The trees at the children of a position, each with its own position. -/
def placedBelow (entries : List Entry) (position : Nat) : List (Nat × Node) :=
  (childrenOf entries position).pmap
    (P := fun child => position < child ∧ child < entries.length)
    (fun child hc => (child, subtree entries child hc.2)) fun _ => lt_of_mem_childrenOf

theorem map_fst_placedBelow (entries : List Entry) (position : Nat) :
    (placedBelow entries position).map (·.1) = childrenOf entries position := by
  simp [placedBelow, List.map_pmap]

theorem map_snd_placedBelow (entries : List Entry) (position : Nat) :
    (placedBelow entries position).map (·.2) = subtreesBelow entries position := by
  simp [placedBelow, subtreesBelow, List.map_pmap]

theorem map_name_placedBelow (entries : List Entry) (position : Nat) :
    (placedBelow entries position).map (·.2.name) =
      (subtreesBelow entries position).map Node.name := by
  rw [← map_snd_placedBelow, List.map_map]
  rfl

theorem subtree_eq (entries : List Entry) {position : Nat} (h : position < entries.length) :
    subtree entries position h =
      entries[position].withChildren (subtreesBelow entries position) := by
  rw [subtree, subtreesBelow]

@[simp] theorem Entry.name_withChildren (entry : Entry) (children : List Node) :
    (entry.withChildren children).name = entry.name := by
  unfold withChildren
  cases entry.body <;> rfl

@[simp] theorem Entry.isDirectory_withChildren (entry : Entry) (children : List Node) :
    (entry.withChildren children).isDirectory = entry.isDirectory := by
  unfold withChildren Entry.isDirectory
  cases entry.body <;> rfl

theorem Entry.withChildren_of_isDirectory {entry : Entry} (h : entry.isDirectory)
    (children : List Node) :
    entry.withChildren children =
      .directory entry.name entry.attributes (Node.byName children) := by
  unfold Entry.isDirectory at h
  unfold withChildren
  cases hbody : entry.body with
  | directory => rfl
  | file => simp [hbody] at h

theorem name_subtree (entries : List Entry) {position : Nat} (h : position < entries.length) :
    (subtree entries position h).name = entries[position].name := by
  rw [subtree_eq, Entry.name_withChildren]

/-- What a list of entries has to satisfy to be the snapshot of a tree. -/
structure Accepted (entries : List Entry) : Prop where
  /-- The first entry is a directory named `/` without a parent. -/
  root : ∃ root, entries[0]? = some root ∧ root.isDirectory ∧ root.name = rootName ∧
    root.parent = none
  /-- The parent of every other entry is a directory before it. -/
  linked : ∀ position entry, entries[position]? = some entry → 0 < position →
    ∃ parent above, entry.parent = some parent ∧ parent < position ∧
      entries[parent]? = some above ∧ above.isDirectory
  /-- Every other entry bears a name that an entry can bear. -/
  named : ∀ position entry, entries[position]? = some entry → 0 < position →
    Path.isName entry.name
  /-- Entries of the same parent have different names. -/
  distinct : entries.Pairwise fun a b => a.parent = b.parent → a.name ≠ b.name
  /-- The size of a file is that of its content. -/
  sized : ∀ entry ∈ entries, ∀ content size, entry.body = .file content size →
    size = content.utf8ByteSize
  /-- No directory is nested too deeply. -/
  shallow : ∀ position entry, entries[position]? = some entry → entry.isDirectory →
    depth entries position ≤ Path.maxDepth

/-- An entry that links to another comes after it, and the other is a directory. -/
theorem Accepted.of_parent {entries : List Entry} (h : Accepted entries) {position parent : Nat}
    {entry : Entry} (hentry : entries[position]? = some entry)
    (hparent : entry.parent = some parent) :
    parent < position ∧ ∃ above, entries[parent]? = some above ∧ above.isDirectory := by
  rcases Nat.eq_zero_or_pos position with rfl | hpos
  · obtain ⟨root, hroot, -, -, hnone⟩ := h.root
    cases hentry.symm.trans hroot
    rw [hnone] at hparent
    cases hparent
  · obtain ⟨parent', above, hsome, hlt, habove⟩ := h.linked position entry hentry hpos
    cases hparent.symm.trans hsome
    exact ⟨hlt, above, habove⟩

/-- The faults of a decoder that loses track of a node. -/
def Fault.isInternal : Fault → Bool
  | notDirectory _ | usedTwice _ | rootNotDirectory => true
  | _ => false

end PocketShell.Snapshot
