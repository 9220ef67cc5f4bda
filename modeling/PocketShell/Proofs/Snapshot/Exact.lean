import PocketShell.Proofs.Snapshot.Decode
import PocketShell.Proofs.Tree.Nodes
import Mathlib.Data.Nat.Init

/-!
# A decoded tree has one node for each entry

Of the entries from a position on, those whose parent comes before the position are the roots of
trees that together hold every one of these entries once. Going down to the first position, the
trees grow together to the one tree of the list.
-/

namespace PocketShell.Snapshot

open scoped List

/-- An entry without its link. -/
def Entry.unlinked (entry : Entry) : Entry := { entry with parent := none }

/-- The entries, without links, of the nodes of the tree at a position. -/
def unlinkedAt (entries : List Entry) (position : Nat) : List Entry :=
  if h : position < entries.length then
    (subtree entries position h).nodes.map (Entry.ofNode none)
  else []

/-- The positions from `position` on whose parent comes before it. -/
def openAt (entries : List Entry) (position : Nat) : List Nat :=
  (List.range entries.length).filter fun i =>
    position ≤ i && (entries[i]?.bind (·.parent)).all (· < position)

theorem mem_openAt {entries : List Entry} {position i : Nat} :
    i ∈ openAt entries position ↔ position ≤ i ∧ ∃ entry, entries[i]? = some entry ∧
      ∀ parent, entry.parent = some parent → parent < position := by
  simp only [openAt, List.mem_filter, List.mem_range, Bool.and_eq_true, decide_eq_true_eq]
  constructor
  · rintro ⟨hlt, hle, hall⟩
    refine ⟨hle, _, List.getElem?_eq_getElem hlt, fun parent hparent => ?_⟩
    simpa [List.getElem?_eq_getElem hlt, hparent] using hall
  · rintro ⟨hle, entry, hentry, hall⟩
    refine ⟨(List.getElem?_eq_some_iff.1 hentry).1, hle, ?_⟩
    rw [hentry, Option.bind_some]
    cases hparent : entry.parent with
    | none => rfl
    | some parent => simpa using hall parent hparent

theorem nodup_openAt (entries : List Entry) (position : Nat) : (openAt entries position).Nodup :=
  List.nodup_range.filter _

theorem flatMap_unlinkedAt (entries : List Entry) {position : Nat} (positions : List Nat)
    (h : ∀ i ∈ positions, position < i ∧ i < entries.length) :
    ((positions.pmap (fun i hi => subtree entries i hi.2) h).flatMap Node.nodes).map
      (Entry.ofNode none) = positions.flatMap (unlinkedAt entries) := by
  induction positions with
  | nil => rfl
  | cons i rest ih =>
    have hi := (h i (by simp)).2
    rw [List.pmap_cons, List.flatMap_cons, List.map_append, ih fun j hj => h j (by simp [hj]),
      List.flatMap_cons, unlinkedAt, dif_pos hi]

/-- A file is no parent. -/
theorem Accepted.childrenOf_file {entries : List Entry} (h : Accepted entries) {position : Nat}
    {content : String} {size : Nat} (hlt : position < entries.length)
    (hbody : entries[position].body = .file content size) : childrenOf entries position = [] := by
  rw [List.eq_nil_iff_forall_not_mem]
  intro child hchild
  obtain ⟨-, entry, hentry, hparent⟩ := mem_childrenOf.1 hchild
  obtain ⟨-, above, habove, hdir⟩ := h.of_parent hentry hparent
  cases (List.getElem?_eq_getElem hlt).symm.trans habove
  simp [Entry.isDirectory, hbody] at hdir

/-- A position's tree is its entry and the trees at its children. -/
theorem unlinkedAt_eq {entries : List Entry} (h : Accepted entries) {position : Nat}
    (hlt : position < entries.length) :
    unlinkedAt entries position =
      entries[position].unlinked :: (childrenOf entries position).flatMap (unlinkedAt entries) := by
  rw [← flatMap_unlinkedAt entries _ fun _ => lt_of_mem_childrenOf, unlinkedAt, dif_pos hlt,
    subtree_eq, ← subtreesBelow, Node.nodes_eq, List.map_cons]
  cases hbody : entries[position].body with
  | directory =>
    have hdir : entries[position].isDirectory := by simp [Entry.isDirectory, hbody]
    rw [Entry.withChildren_of_isDirectory hdir, Node.entries, Node.nodesBelow_byName]
    simp [Entry.ofNode, Entry.unlinked, hbody]
  | file content size =>
    have hsize := h.sized _ (List.getElem_mem hlt) content size hbody
    rw [subtreesBelow_eq_nil (h.childrenOf_file hlt hbody)]
    simp [Entry.withChildren, Entry.ofNode, Entry.unlinked, hbody, hsize, Node.entries,
      Node.nodesBelow]

/-! ## Growing together -/

/-- One position further down, the children of that position are roots of their own. -/
theorem openAt_succ_perm (entries : List Entry) (position : Nat) :
    openAt entries (position + 1) ~
      childrenOf entries position ++ (openAt entries position).erase position := by
  rw [(nodup_openAt entries position).erase_eq_filter]
  have hnodup : (childrenOf entries position ++
      (openAt entries position).filter (· != position)).Nodup := by
    refine List.nodup_append.2 ⟨(pairwise_childrenOf _ _).imp Nat.ne_of_lt,
      (nodup_openAt _ _).filter _, ?_⟩
    rintro i hchild _ hopen rfl
    obtain ⟨-, entry, hentry, hparent⟩ := mem_childrenOf.1 hchild
    obtain ⟨-, entry', hentry', hall⟩ := mem_openAt.1 (List.mem_filter.1 hopen).1
    cases hentry.symm.trans hentry'
    exact absurd (hall position hparent) (Nat.lt_irrefl _)
  refine (List.perm_ext_iff_of_nodup (nodup_openAt _ _) hnodup).2 fun i => ?_
  simp only [List.mem_append, mem_childrenOf, mem_openAt, List.mem_filter, bne_iff_ne]
  constructor
  · rintro ⟨hle, entry, hentry, hall⟩
    by_cases hparent : entry.parent = some position
    · exact .inl ⟨hle, entry, hentry, hparent⟩
    · refine .inr ⟨⟨Nat.le_of_succ_le hle, entry, hentry, fun parent hsome => ?_⟩, by omega⟩
      have hlt := hall parent hsome
      have hne : parent ≠ position := fun heq => hparent (heq ▸ hsome)
      omega
  · rintro (⟨hlt, entry, hentry, hparent⟩ | ⟨⟨hle, entry, hentry, hall⟩, hne⟩)
    · refine ⟨hlt, entry, hentry, fun parent hsome => ?_⟩
      cases hparent.symm.trans hsome
      exact Nat.lt_succ_self _
    · exact ⟨by omega, entry, hentry, fun parent hsome => Nat.lt_succ_of_lt (hall parent hsome)⟩

theorem Accepted.mem_openAt_self {entries : List Entry} (h : Accepted entries) {position : Nat}
    (hlt : position < entries.length) : position ∈ openAt entries position := by
  have hentry := List.getElem?_eq_getElem hlt
  exact mem_openAt.2 ⟨Nat.le_refl _, _, hentry, fun _ hparent => (h.of_parent hentry hparent).1⟩

/-- The open trees hold every entry from the position on once. -/
theorem Accepted.flatMap_openAt_perm {entries : List Entry} (h : Accepted entries) (position : Nat)
    (hle : position ≤ entries.length) :
    (openAt entries position).flatMap (unlinkedAt entries) ~
      (entries.drop position).map Entry.unlinked := by
  induction hle using Nat.decreasingInduction with
  | self =>
    have hnil : openAt entries entries.length = [] := by
      rw [List.eq_nil_iff_forall_not_mem]
      intro i hi
      obtain ⟨hle, entry, hentry, -⟩ := mem_openAt.1 hi
      exact absurd (List.getElem?_eq_some_iff.1 hentry).1 (by omega)
    simp [hnil]
  | of_succ position hlt ih =>
    calc
      (openAt entries position).flatMap (unlinkedAt entries)
        ~ (position :: (openAt entries position).erase position).flatMap (unlinkedAt entries) :=
          (List.perm_cons_erase (h.mem_openAt_self hlt)).flatMap_right _
      _ = entries[position].unlinked ::
            (childrenOf entries position ++ (openAt entries position).erase position).flatMap
              (unlinkedAt entries) := by
          rw [List.flatMap_cons, unlinkedAt_eq h hlt, List.flatMap_append, List.cons_append]
      _ ~ entries[position].unlinked ::
            (openAt entries (position + 1)).flatMap (unlinkedAt entries) :=
          ((openAt_succ_perm entries position).symm.flatMap_right _).cons _
      _ ~ entries[position].unlinked :: (entries.drop (position + 1)).map Entry.unlinked :=
          ih.cons _
      _ = (entries.drop position).map Entry.unlinked := by
          rw [List.drop_eq_getElem_cons hlt, List.map_cons]

/-- The nodes of a decoded tree are the entries of the list, each of them once. -/
theorem Accepted.nodes_perm {entries : List Entry} (h : Accepted entries)
    (hlt : 0 < entries.length) :
    (subtree entries 0 hlt).nodes.map (Entry.ofNode none) ~ entries.map Entry.unlinked := by
  have hopen : openAt entries 0 ~ [0] := by
    refine (List.perm_ext_iff_of_nodup (nodup_openAt _ _) (List.nodup_singleton 0)).2 fun i => ?_
    rw [List.mem_singleton]
    constructor
    · intro hi
      obtain ⟨-, entry, hentry, hall⟩ := mem_openAt.1 hi
      by_contra hne
      obtain ⟨parent, -, hsome, -⟩ := h.linked i entry hentry (by omega)
      exact Nat.not_lt_zero _ (hall parent hsome)
    · rintro rfl
      exact h.mem_openAt_self hlt
  have hperm := h.flatMap_openAt_perm 0 (Nat.zero_le _)
  simpa [unlinkedAt, hlt] using (hopen.flatMap_right _).symm.trans hperm

/-- In an accepted list the children of an entry are all that name it. -/
theorem Accepted.childrenOf_eq {entries : List Entry} (h : Accepted entries) (position : Nat) :
    childrenOf entries position = entries.findIdxs (·.parent == some position) := by
  have hbefore : (entries.take (position + 1)).findIdxs (·.parent == some position) = [] := by
    rw [List.findIdxs_eq_nil_iff]
    intro entry hmem
    obtain ⟨i, hi, rfl⟩ := List.getElem_of_mem hmem
    rw [List.length_take] at hi
    have hentry := List.getElem?_eq_getElem (show i < entries.length by omega)
    rw [List.getElem_take, beq_eq_false_iff_ne]
    intro hparent
    have hbehind := (h.of_parent hentry hparent).1
    omega
  conv_rhs => rw [← List.take_append_drop (position + 1) entries, List.findIdxs_append, hbefore]
  rw [childrenOf, List.nil_append, Nat.zero_add, List.length_take]
  rcases Nat.le_total (position + 1) entries.length with hle | hle
  · rw [Nat.min_eq_left hle]
  · simp [List.drop_eq_nil_of_le hle]

/-- Decoding accepts exactly the lists that describe a tree and gives the tree they describe: at
each position the entry with the trees of all entries that name it, in the order of the list, and
altogether each entry once. It never loses track of a node. -/
theorem decode_exact (entries : List Entry) :
    ((∃ tree, decode entries = .ok tree) ↔ Accepted entries) ∧
      (∀ tree, decode entries = .ok tree →
        (∃ h, tree = subtree entries 0 h) ∧
          (∀ position, childrenOf entries position =
            entries.findIdxs (·.parent == some position)) ∧
          tree.nodes.map (Entry.ofNode none) ~ entries.map Entry.unlinked) ∧
      (∀ position, decode entries ≠ .error (.notDirectory position) ∧
        decode entries ≠ .error (.usedTwice position)) ∧
      decode entries ≠ .error .rootNotDirectory := by
  have hfault : ∀ fault, decode entries = .error fault → fault.isInternal = false := by
    intro fault heq
    have hyields := decode_yields entries
    rw [heq] at hyields
    exact hyields.2
  refine ⟨⟨?_, ?_⟩, ?_, fun position => ⟨?_, ?_⟩, ?_⟩
  · rintro ⟨tree, htree⟩
    exact (decode_eq_ok_iff.1 htree).1
  · intro hacc
    have hlt : 0 < entries.length := by
      obtain ⟨root, hroot, -⟩ := hacc.root
      exact (List.getElem?_eq_some_iff.1 hroot).1
    exact ⟨_, decode_eq_ok_iff.2 ⟨hacc, hlt, rfl⟩⟩
  · intro tree htree
    obtain ⟨hacc, hlt, rfl⟩ := decode_eq_ok_iff.1 htree
    exact ⟨⟨hlt, rfl⟩, hacc.childrenOf_eq, hacc.nodes_perm hlt⟩
  · intro heq
    exact Bool.false_ne_true (hfault _ heq).symm
  · intro heq
    exact Bool.false_ne_true (hfault _ heq).symm
  · intro heq
    exact Bool.false_ne_true (hfault _ heq).symm

end PocketShell.Snapshot
