import PocketShell.Proofs.Snapshot.Exact
import PocketShell.Proofs.Snapshot.Preorder
import PocketShell.Proofs.Snapshot.Restored
import PocketShell.Proofs.Snapshot.Text
import Mathlib.Data.Fintype.EquivFin
import Mathlib.Data.List.Sort

/-!
# The order of the entries does not matter

Two lists of entries describe the same tree exactly when one is a rearrangement of the other that
keeps the root first, parents before their children and the children of one parent in their order.
Among the rearrangements of a list there is one in pre-order, and that one is the list that encoding
gives.
-/

namespace PocketShell.Snapshot

/-- The entry with its parent at another place. -/
def Entry.renumbered (place : Nat → Nat) (entry : Entry) : Entry :=
  { entry with parent := entry.parent.map place }

/-- The others are the entries, each at its place, with the links to match. The root stays first, a
parent comes before its children, and the children of one parent stay in their order. -/
structure Rearranges (place : Nat → Nat) (entries others : List Entry) : Prop where
  length_eq : others.length = entries.length
  injective : ∀ i < entries.length, ∀ j < entries.length, place i = place j → i = j
  moved : ∀ position entry, entries[position]? = some entry →
    others[place position]? = some (entry.renumbered place)
  root : place 0 = 0
  parent_lt : ∀ position entry parent, entries[position]? = some entry →
    entry.parent = some parent → place parent < place position
  siblings : ∀ i j a b, entries[i]? = some a → entries[j]? = some b → a.parent = b.parent →
    i < j → place i < place j

/-! ## Rearranged lists -/

namespace Rearranges

variable {place : Nat → Nat} {entries others : List Entry}

theorem place_lt (h : Rearranges place entries others) {position : Nat}
    (hlt : position < entries.length) : place position < others.length :=
  (List.getElem?_eq_some_iff.1 (h.moved position _ (List.getElem?_eq_getElem hlt))).1

/-- Every other entry was one of the entries. -/
theorem exists_place (h : Rearranges place entries others) {position : Nat}
    (hlt : position < others.length) : ∃ before < entries.length, place before = position := by
  let moved (i : Fin entries.length) : Fin entries.length :=
    ⟨place i, Nat.lt_of_lt_of_eq (h.place_lt i.2) h.length_eq⟩
  have hinjective : Function.Injective moved := fun i j hij =>
    Fin.ext (h.injective i i.2 j j.2 (congrArg Fin.val hij))
  obtain ⟨before, hbefore⟩ :=
    (Finite.injective_iff_surjective.1 hinjective) ⟨position, Nat.lt_of_lt_of_eq hlt h.length_eq⟩
  exact ⟨before, before.2, congrArg Fin.val hbefore⟩

theorem exists_entry (h : Rearranges place entries others) {position : Nat} {other : Entry}
    (hother : others[position]? = some other) :
    ∃ before entry, place before = position ∧ entries[before]? = some entry ∧
      other = entry.renumbered place := by
  obtain ⟨before, hlt, rfl⟩ := h.exists_place (List.getElem?_eq_some_iff.1 hother).1
  have hentry := List.getElem?_eq_getElem hlt
  exact ⟨before, _, rfl, hentry, Option.some.inj (hother.symm.trans (h.moved before _ hentry))⟩

/-- Whoever links to the place of an entry linked to the entry before. -/
theorem parent_eq_some_iff (h : Rearranges place entries others) (hacc : Accepted entries)
    {position : Nat} (hposition : position < entries.length) {before : Nat} {entry : Entry}
    (hentry : entries[before]? = some entry) :
    (entry.renumbered place).parent = some (place position) ↔ entry.parent = some position := by
  constructor
  · intro hparent
    obtain ⟨parent, hsome, hplace⟩ := Option.map_eq_some_iff.1 hparent
    have hbefore := (List.getElem?_eq_some_iff.1 hentry).1
    have hparentLt := Nat.lt_trans (hacc.of_parent hentry hsome).1 hbefore
    rw [hsome, h.injective parent hparentLt position hposition hplace]
  · intro hparent
    rw [Entry.renumbered, hparent, Option.map_some]

theorem childrenOf_eq (h : Rearranges place entries others) (hacc : Accepted entries)
    {position : Nat} (hlt : position < entries.length) :
    childrenOf others (place position) = (childrenOf entries position).map place := by
  have hordered : ((childrenOf entries position).map place).Pairwise (· < ·) := by
    rw [List.pairwise_map]
    refine (pairwise_childrenOf entries position).imp_of_mem fun {i j} hi hj hij => ?_
    obtain ⟨-, a, ha, haParent⟩ := mem_childrenOf.1 hi
    obtain ⟨-, b, hb, hbParent⟩ := mem_childrenOf.1 hj
    exact h.siblings i j a b ha hb (haParent.trans hbParent.symm) hij
  refine (pairwise_childrenOf others (place position)).eq_of_mem_iff hordered fun child => ?_
  rw [mem_childrenOf, List.mem_map]
  constructor
  · rintro ⟨-, other, hother, hparent⟩
    obtain ⟨before, entry, rfl, hentry, rfl⟩ := h.exists_entry hother
    have hsome := (h.parent_eq_some_iff hacc hlt hentry).1 hparent
    exact ⟨before, mem_childrenOf.2 ⟨(hacc.of_parent hentry hsome).1, entry, hentry, hsome⟩, rfl⟩
  · rintro ⟨before, hbefore, rfl⟩
    obtain ⟨-, entry, hentry, hsome⟩ := mem_childrenOf.1 hbefore
    exact ⟨h.parent_lt before entry position hentry hsome, _, h.moved before entry hentry,
      (h.parent_eq_some_iff hacc hlt hentry).2 hsome⟩

/-- The tree at an entry moves with it. -/
theorem subtree_eq (h : Rearranges place entries others) (hacc : Accepted entries)
    {position : Nat} (hlt : position < entries.length) (hplace : place position < others.length) :
    subtree others (place position) hplace = subtree entries position hlt := by
  induction hn : entries.length - position using Nat.strongRecOn generalizing position with
  | ind n ih =>
    have hbelow : subtreesBelow others (place position) = subtreesBelow entries position := by
      have hchildren : childrenOf others (place position) =
          ((placedBelow entries position).map fun e => (place e.1, e.2)).map (·.1) := by
        rw [h.childrenOf_eq hacc hlt, ← map_fst_placedBelow, List.map_map, List.map_map]
        rfl
      rw [subtreesBelow_eq hchildren ?_, List.map_map, ← map_snd_placedBelow]
      · rfl
      · intro e he hmoved
        obtain ⟨_, hplaced, rfl⟩ := List.mem_map.1 he
        obtain ⟨child, hchild, rfl⟩ := List.mem_pmap.1 hplaced
        have hbounds := lt_of_mem_childrenOf hchild
        exact ih (entries.length - child) (by omega) hbounds.2 hmoved rfl
    have hmoved := h.moved position _ (List.getElem?_eq_getElem hlt)
    rw [List.getElem?_eq_getElem hplace] at hmoved
    rw [Snapshot.subtree_eq, Snapshot.subtree_eq, hbelow, Option.some.inj hmoved]
    rfl

theorem depth_eq (h : Rearranges place entries others) (hacc : Accepted entries)
    {position : Nat} (hlt : position < entries.length) :
    depth others (place position) = depth entries position := by
  induction position using Nat.strongRecOn with
  | ind position ih =>
    have hentry := List.getElem?_eq_getElem hlt
    have hmoved := h.moved position _ hentry
    cases hparent : entries[position].parent with
    | none =>
      have hnone : (entries[position].renumbered place).parent = none := by
        rw [Entry.renumbered, hparent, Option.map_none]
      rw [depth, depth, hmoved, hentry, Option.bind_some, Option.bind_some, hparent, hnone]
    | some parent =>
      have hbefore := (hacc.of_parent hentry hparent).1
      have hlink : (entries[position].renumbered place).parent = some (place parent) := by
        rw [Entry.renumbered, hparent, Option.map_some]
      rw [depth_of_parent hmoved hlink (h.parent_lt position _ parent hentry hparent),
        depth_of_parent hentry hparent hbefore, ih parent hbefore (by omega)]

theorem accepted (h : Rearranges place entries others) (hacc : Accepted entries) :
    Accepted others where
  root := by
    obtain ⟨root, hroot, hdir, hname, hparent⟩ := hacc.root
    have hmoved := h.moved 0 root hroot
    rw [h.root] at hmoved
    exact ⟨_, hmoved, hdir, hname, by rw [Entry.renumbered, hparent, Option.map_none]⟩
  linked position other hother hpos := by
    obtain ⟨before, entry, rfl, hentry, rfl⟩ := h.exists_entry hother
    have hbefore : 0 < before := Nat.pos_of_ne_zero fun hzero => by
      rw [hzero, h.root] at hpos
      exact Nat.lt_irrefl 0 hpos
    obtain ⟨parent, above, hparent, -, habove, hdir⟩ := hacc.linked before entry hentry hbefore
    exact ⟨place parent, _, by rw [Entry.renumbered, hparent, Option.map_some],
      h.parent_lt before entry parent hentry hparent, h.moved parent above habove, hdir⟩
  named position other hother hpos := by
    obtain ⟨before, entry, rfl, hentry, rfl⟩ := h.exists_entry hother
    refine hacc.named before entry hentry (Nat.pos_of_ne_zero fun hzero => ?_)
    rw [hzero, h.root] at hpos
    exact Nat.lt_irrefl 0 hpos
  distinct := by
    rw [List.pairwise_iff_getElem]
    intro i j hi hj hij hsame
    obtain ⟨before, a, rfl, ha, hmoved⟩ := h.exists_entry (List.getElem?_eq_getElem hi)
    obtain ⟨other, b, rfl, hb, hmoved'⟩ := h.exists_entry (List.getElem?_eq_getElem hj)
    rw [hmoved, hmoved'] at hsame ⊢
    have hparents : a.parent = b.parent := by
      cases hparent : b.parent with
      | none =>
        rw [Entry.renumbered, Entry.renumbered, hparent, Option.map_none] at hsame
        exact Option.map_eq_none_iff.1 hsame
      | some parent =>
        have hlt := Nat.lt_trans (hacc.of_parent hb hparent).1 (List.getElem?_eq_some_iff.1 hb).1
        rw [← h.parent_eq_some_iff hacc hlt ha, hsame, Entry.renumbered, hparent, Option.map_some]
    have hdistinct := List.pairwise_iff_getElem.1 hacc.distinct
    obtain ⟨hbefore, rfl⟩ := List.getElem?_eq_some_iff.1 ha
    obtain ⟨hother, rfl⟩ := List.getElem?_eq_some_iff.1 hb
    rcases Nat.lt_trichotomy before other with hlt | rfl | hgt
    · exact hdistinct before other hbefore hother hlt hparents
    · exact absurd hij (Nat.lt_irrefl _)
    · exact (hdistinct other before hother hbefore hgt hparents.symm).symm
  sized other hother content size hbody := by
    obtain ⟨position, hlt, rfl⟩ := List.getElem_of_mem hother
    obtain ⟨before, entry, -, hentry, hmoved⟩ := h.exists_entry (List.getElem?_eq_getElem hlt)
    rw [hmoved] at hbody
    exact hacc.sized entry (List.mem_of_getElem? hentry) content size hbody
  shallow position other hother hdir := by
    obtain ⟨before, entry, rfl, hentry, rfl⟩ := h.exists_entry hother
    rw [h.depth_eq hacc (List.getElem?_eq_some_iff.1 hentry).1]
    exact hacc.shallow before entry hentry hdir

/-- A rearranged list is decoded to the same tree. -/
theorem decode_eq (h : Rearranges place entries others) {tree : Node}
    (htree : decode entries = .ok tree) : decode others = .ok tree := by
  obtain ⟨hacc, hlt, rfl⟩ := decode_eq_ok_iff.1 htree
  have hroot : 0 < others.length := h.length_eq ▸ hlt
  refine decode_eq_ok_iff.2 ⟨h.accepted hacc, hroot, ?_⟩
  have hsame := h.subtree_eq hacc hlt (by rw [h.root]; exact hroot)
  simp only [h.root] at hsame
  exact hsame.symm

end Rearranges

/-! ## Lists of the same tree -/

section
variable {entries others : List Entry}

/-- The position among the others of what stands at a position of the entries, if both describe the
same tree: the root is the root, and the child of a parent is the child of the same rank of the
parent's counterpart. -/
def counterpart (entries others : List Entry) (position : Nat) : Nat :=
  match entries[position]?.bind (·.parent) with
  | none => 0
  | some parent =>
    if parent < position then
      (childrenOf others (counterpart entries others parent)).getD
        ((childrenOf entries parent).idxOf position) 0
    else 0
termination_by position

theorem counterpart_of_root {root : Entry} (hroot : entries[0]? = some root)
    (hparent : root.parent = none) : counterpart entries others 0 = 0 := by
  rw [counterpart, hroot, Option.bind_some, hparent]

theorem counterpart_of_child {position rank child : Nat}
    (hchild : (childrenOf entries position)[rank]? = some child) :
    counterpart entries others child =
      (childrenOf others (counterpart entries others position)).getD rank 0 := by
  obtain ⟨hrank, hget⟩ := List.getElem?_eq_some_iff.1 hchild
  obtain ⟨hlt, entry, hentry, hparent⟩ := mem_childrenOf.1 (List.mem_of_getElem? hchild)
  have hnodup : (childrenOf entries position).Nodup :=
    (pairwise_childrenOf entries position).imp Nat.ne_of_lt
  have hindex : (childrenOf entries position).idxOf child = rank := by
    rw [← hget]
    exact hnodup.idxOf_getElem rank hrank
  rw [counterpart, hentry, Option.bind_some, hparent]
  dsimp only
  rw [if_pos hlt, hindex]

/-- Every entry but the root is the child of some rank of an earlier one. -/
theorem Accepted.exists_rank (h : Accepted entries) {position : Nat}
    (hlt : position < entries.length) (hpos : 0 < position) :
    ∃ parent < position, ∃ rank : Nat, (childrenOf entries parent)[rank]? = some position := by
  have hentry := List.getElem?_eq_getElem hlt
  obtain ⟨parent, -, hparent, hbefore, -⟩ := h.linked position _ hentry hpos
  have hmem := mem_childrenOf.2 ⟨hbefore, _, hentry, hparent⟩
  obtain ⟨rank, hrank, hget⟩ := List.getElem_of_mem hmem
  exact ⟨parent, hbefore, rank, List.getElem?_eq_some_iff.2 ⟨hrank, hget⟩⟩

theorem byName_injective {nodes others : List Node} (h : Node.byName nodes = Node.byName others) :
    nodes = others := by
  have hnodes : ∀ nodes : List Node, (Node.byName nodes).map (·.2) = nodes := by
    simp [Node.byName, Function.comp_def]
  rw [← hnodes nodes, h, hnodes]

/-- Equal trees have the same entry at their heads, up to its link, and equal trees below. -/
theorem Accepted.of_subtree_eq (h : Accepted entries) (hothers : Accepted others)
    {position other : Nat} (hlt : position < entries.length) (hother : other < others.length)
    (hsame : subtree others other hother = subtree entries position hlt) :
    others[other].unlinked = entries[position].unlinked ∧
      subtreesBelow others other = subtreesBelow entries position := by
  rw [subtree_eq, subtree_eq, Entry.withChildren, Entry.withChildren] at hsame
  cases hbody : entries[position].body with
  | directory =>
    cases hbody' : others[other].body with
    | directory =>
      rw [hbody, hbody'] at hsame
      obtain ⟨hname, hattributes, hbelow⟩ := Node.directory.inj hsame
      refine ⟨?_, byName_injective hbelow⟩
      rw [Entry.unlinked, Entry.unlinked, hname, hattributes, hbody, hbody']
    | file =>
      rw [hbody, hbody'] at hsame
      cases hsame
  | file content size =>
    cases hbody' : others[other].body with
    | directory =>
      rw [hbody, hbody'] at hsame
      cases hsame
    | file content' size' =>
      rw [hbody, hbody'] at hsame
      obtain ⟨hname, hattributes, rfl⟩ := Node.file.inj hsame
      have hsize := h.sized _ (List.getElem_mem hlt) content' size hbody
      have hsize' := hothers.sized _ (List.getElem_mem hother) content' size' hbody'
      refine ⟨?_, ?_⟩
      · rw [Entry.unlinked, Entry.unlinked, hname, hattributes, hbody, hbody', hsize, hsize']
      · rw [subtreesBelow_eq_nil (h.childrenOf_file hlt hbody),
          subtreesBelow_eq_nil (hothers.childrenOf_file hother hbody')]

theorem length_subtreesBelow (entries : List Entry) (position : Nat) :
    (subtreesBelow entries position).length = (childrenOf entries position).length := by
  rw [subtreesBelow, List.length_pmap]

theorem getElem?_subtreesBelow {position rank child : Nat}
    (hchild : (childrenOf entries position)[rank]? = some child) (hlt : child < entries.length) :
    (subtreesBelow entries position)[rank]? = some (subtree entries child hlt) := by
  obtain ⟨hrank, rfl⟩ := List.getElem?_eq_some_iff.1 hchild
  have hbelow : rank < (subtreesBelow entries position).length := by rwa [length_subtreesBelow]
  rw [List.getElem?_eq_getElem hbelow]
  simp only [subtreesBelow, List.getElem_pmap]

/-- Below equal trees, the children of one rank have equal trees. -/
theorem exists_child_of_subtreesBelow_eq {position other rank child : Nat}
    (hsame : subtreesBelow others other = subtreesBelow entries position)
    (hchild : (childrenOf entries position)[rank]? = some child) (hlt : child < entries.length) :
    ∃ counter hcounter, (childrenOf others other)[rank]? = some counter ∧
      subtree others counter hcounter = subtree entries child hlt := by
  have hlength : (childrenOf others other).length = (childrenOf entries position).length := by
    rw [← length_subtreesBelow, hsame, length_subtreesBelow]
  have hrank : rank < (childrenOf others other).length :=
    hlength ▸ (List.getElem?_eq_some_iff.1 hchild).1
  have hcounter := List.getElem?_eq_getElem hrank
  have hlt' := (lt_of_mem_childrenOf (List.mem_of_getElem? hcounter)).2
  have hbelow := getElem?_subtreesBelow hcounter hlt'
  rw [hsame, getElem?_subtreesBelow hchild hlt] at hbelow
  exact ⟨_, hlt', hcounter, (Option.some.inj hbelow).symm⟩

/-- The tree at the counterpart of a position is the tree at the position. -/
theorem Accepted.subtree_counterpart (h : Accepted entries) (hothers : Accepted others)
    {hlt : 0 < entries.length} {hlt' : 0 < others.length}
    (hsame : subtree others 0 hlt' = subtree entries 0 hlt) {position : Nat}
    (hposition : position < entries.length) :
    ∃ hcounter, subtree others (counterpart entries others position) hcounter =
      subtree entries position hposition := by
  induction position using Nat.strongRecOn with
  | ind position ih =>
    rcases Nat.eq_zero_or_pos position with rfl | hpos
    · obtain ⟨root, hroot, -, -, hnone⟩ := h.root
      simp only [counterpart_of_root hroot hnone]
      exact ⟨hlt', hsame⟩
    · obtain ⟨parent, hbefore, rank, hchild⟩ := h.exists_rank hposition hpos
      obtain ⟨hcounter, htree⟩ := ih parent hbefore (Nat.lt_trans hbefore hposition)
      obtain ⟨counter, hlt, hrank, hbelow⟩ := exists_child_of_subtreesBelow_eq
        (h.of_subtree_eq hothers _ hcounter htree).2 hchild hposition
      have hcounterpart : counterpart entries others position = counter := by
        rw [counterpart_of_child hchild, List.getD_eq_getElem?_getD, hrank, Option.getD_some]
      rw [hcounterpart]
      exact ⟨hlt, hbelow⟩

/-- The counterparts of the children of an entry are the children of its counterpart. -/
theorem Accepted.counterpart_child (h : Accepted entries) (hothers : Accepted others)
    {hlt : 0 < entries.length} {hlt' : 0 < others.length}
    (hsame : subtree others 0 hlt' = subtree entries 0 hlt) {position rank child : Nat}
    (hchild : (childrenOf entries position)[rank]? = some child) :
    (childrenOf others (counterpart entries others position))[rank]? =
      some (counterpart entries others child) := by
  obtain ⟨hbefore, hbound⟩ := lt_of_mem_childrenOf (List.mem_of_getElem? hchild)
  obtain ⟨hcounter, htree⟩ :=
    h.subtree_counterpart hothers hsame (Nat.lt_trans hbefore hbound)
  obtain ⟨counter, -, hrank, -⟩ := exists_child_of_subtreesBelow_eq
    (h.of_subtree_eq hothers _ hcounter htree).2 hchild hbound
  rw [counterpart_of_child hchild, List.getD_eq_getElem?_getD, hrank, Option.getD_some]

/-- The counterpart of the counterpart is what it is the counterpart of. -/
theorem Accepted.counterpart_counterpart (h : Accepted entries) (hothers : Accepted others)
    {hlt : 0 < entries.length} {hlt' : 0 < others.length}
    (hsame : subtree others 0 hlt' = subtree entries 0 hlt) {position : Nat}
    (hposition : position < entries.length) :
    counterpart others entries (counterpart entries others position) = position := by
  induction position using Nat.strongRecOn with
  | ind position ih =>
    rcases Nat.eq_zero_or_pos position with rfl | hpos
    · obtain ⟨root, hroot, -, -, hnone⟩ := h.root
      obtain ⟨root', hroot', -, -, hnone'⟩ := hothers.root
      rw [counterpart_of_root hroot hnone, counterpart_of_root hroot' hnone']
    · obtain ⟨parent, hbefore, rank, hchild⟩ := h.exists_rank hposition hpos
      have hcounter := h.counterpart_child hothers hsame hchild
      rw [counterpart_of_child hcounter, ih parent hbefore (Nat.lt_trans hbefore hposition),
        List.getD_eq_getElem?_getD, hchild, Option.getD_some]

/-- Of two children of one parent, the one of the lower rank comes first. -/
theorem lt_iff_rank_lt {position i j m n : Nat} (hi : (childrenOf entries position)[i]? = some m)
    (hj : (childrenOf entries position)[j]? = some n) : m < n ↔ i < j := by
  obtain ⟨_, rfl⟩ := List.getElem?_eq_some_iff.1 hi
  obtain ⟨_, rfl⟩ := List.getElem?_eq_some_iff.1 hj
  exact (pairwise_childrenOf entries position).sortedLT.getElem_lt_getElem_iff

theorem Entry.eq_renumbered {place : Nat → Nat} {other entry : Entry}
    (hunlinked : other.unlinked = entry.unlinked)
    (hparent : other.parent = entry.parent.map place) : other = entry.renumbered place := by
  obtain ⟨link, name, attributes, body⟩ := other
  obtain ⟨hname, hattributes, hbody⟩ := Entry.mk.inj hunlinked |>.2
  subst hname hattributes hbody hparent
  rfl

/-- The links of the counterparts are those of the entries. -/
theorem Accepted.parent_counterpart (h : Accepted entries) (hothers : Accepted others)
    {hlt : 0 < entries.length} {hlt' : 0 < others.length}
    (hsame : subtree others 0 hlt' = subtree entries 0 hlt) {position : Nat} {entry other : Entry}
    (hentry : entries[position]? = some entry)
    (hother : others[counterpart entries others position]? = some other) :
    other.parent = entry.parent.map (counterpart entries others) := by
  rcases Nat.eq_zero_or_pos position with rfl | hpos
  · obtain ⟨root, hroot, -, -, hnone⟩ := h.root
    obtain ⟨root', hroot', -, -, hnone'⟩ := hothers.root
    rw [counterpart_of_root hroot hnone] at hother
    cases hentry.symm.trans hroot
    cases hother.symm.trans hroot'
    rw [hnone, hnone', Option.map_none]
  · obtain ⟨parent, -, hparent, hbefore, -⟩ := h.linked position entry hentry hpos
    obtain ⟨rank, hchild⟩ := List.getElem?_of_mem
      (mem_childrenOf.2 ⟨hbefore, entry, hentry, hparent⟩)
    obtain ⟨-, found, hfound, hlink⟩ := mem_childrenOf.1
      (List.mem_of_getElem? (h.counterpart_child hothers hsame hchild))
    cases hother.symm.trans hfound
    rw [hlink, hparent, Option.map_some]

/-- Lists that describe the same tree are rearrangements of each other. -/
theorem Accepted.rearranges_counterpart (h : Accepted entries) (hothers : Accepted others)
    {hlt : 0 < entries.length} {hlt' : 0 < others.length}
    (hsame : subtree others 0 hlt' = subtree entries 0 hlt) :
    Rearranges (counterpart entries others) entries others where
  length_eq := by
    have hnodes := hothers.nodes_perm hlt'
    rw [hsame] at hnodes
    simpa using hnodes.symm.trans (h.nodes_perm hlt) |>.length_eq
  injective i hi j hj hij := by
    rw [← h.counterpart_counterpart hothers hsame hi, hij,
      h.counterpart_counterpart hothers hsame hj]
  moved position entry hentry := by
    obtain ⟨hbound, rfl⟩ := List.getElem?_eq_some_iff.1 hentry
    obtain ⟨hcounter, htree⟩ := h.subtree_counterpart hothers hsame hbound
    have hother := List.getElem?_eq_getElem hcounter
    rw [hother, Entry.eq_renumbered (h.of_subtree_eq hothers hbound hcounter htree).1
      (h.parent_counterpart hothers hsame hentry hother)]
  root := by
    obtain ⟨root, hroot, -, -, hnone⟩ := h.root
    exact counterpart_of_root hroot hnone
  parent_lt position entry parent hentry hparent := by
    have hbefore := (h.of_parent hentry hparent).1
    obtain ⟨rank, hchild⟩ := List.getElem?_of_mem
      (mem_childrenOf.2 ⟨hbefore, entry, hentry, hparent⟩)
    exact (lt_of_mem_childrenOf (List.mem_of_getElem? (h.counterpart_child hothers hsame hchild))).1
  siblings i j a b ha hb hparents hij := by
    obtain ⟨parent, -, hparent, hj, -⟩ := h.linked j b hb (Nat.zero_lt_of_lt hij)
    have hi := (h.of_parent ha (hparents.trans hparent)).1
    obtain ⟨rankI, hrankI⟩ := List.getElem?_of_mem
      (mem_childrenOf.2 ⟨hi, a, ha, hparents.trans hparent⟩)
    obtain ⟨rankJ, hrankJ⟩ := List.getElem?_of_mem (mem_childrenOf.2 ⟨hj, b, hb, hparent⟩)
    exact (lt_iff_rank_lt (h.counterpart_child hothers hsame hrankI)
      (h.counterpart_child hothers hsame hrankJ)).2 ((lt_iff_rank_lt hrankI hrankJ).1 hij)

end

end PocketShell.Snapshot
