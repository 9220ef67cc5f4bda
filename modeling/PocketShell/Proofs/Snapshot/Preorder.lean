import PocketShell.Proofs.Snapshot.Decode
import PocketShell.Snapshot.Encode

/-!
# The entries of a tree in pre-order

The work list of the encoder gives the pre-order of the tree: an entry, then the entries of all that
is below it. So every node has its entries in one block of the list, which no entry behind the block
links to, and the tree at the head of a block is the node itself. A sound tree therefore has
accepted entries, and is decoded from them.
-/

namespace PocketShell.Snapshot

open Node (countAll)

/-! ## The pre-order -/

mutual

/-- The entries of a tree whose root stands at `position`. -/
def listing (parent : Option Nat) (position : Nat) : Node → List Entry
  | .directory name attributes entries =>
    ⟨parent, name, attributes, .directory⟩ :: listingBelow position (position + 1) entries
  | .file name attributes content =>
    [⟨parent, name, attributes, .file content content.utf8ByteSize⟩]

/-- The entries of the trees of a directory that stands at `parent`, the first at `position`. -/
def listingBelow (parent position : Nat) : List (String × Node) → List Entry
  | [] => []
  | (_, node) :: rest =>
    listing (some parent) position node ++ listingBelow parent (position + node.count) rest

end

theorem listing_eq (parent : Option Nat) (position : Nat) (node : Node) :
    listing parent position node =
      Entry.ofNode parent node :: listingBelow position (position + 1) node.entries := by
  cases node <;> rfl

@[simp] theorem name_ofNode (parent : Option Nat) (node : Node) :
    (Entry.ofNode parent node).name = node.name := by
  cases node <;> rfl

@[simp] theorem parent_ofNode (parent : Option Nat) (node : Node) :
    (Entry.ofNode parent node).parent = parent := by
  cases node <;> rfl

@[simp] theorem isDirectory_ofNode (parent : Option Nat) (node : Node) :
    (Entry.ofNode parent node).isDirectory = node.isDirectory := by
  cases node <;> rfl

@[simp] theorem attributes_ofNode (parent : Option Nat) (node : Node) :
    (Entry.ofNode parent node).attributes = node.attributes := by
  cases node <;> rfl

/-- The size in the entry of a file is that of its content. -/
theorem size_ofNode {parent : Option Nat} {node : Node} {content : String} {size : Nat}
    (h : (Entry.ofNode parent node).body = .file content size) : size = content.utf8ByteSize := by
  cases node with
  | directory => cases h
  | file => cases h; rfl

theorem count_eq (node : Node) : node.count = countAll node.entries + 1 := by
  cases node <;> rfl

theorem length_listingBelow {entries : List (String × Node)} (parent position : Nat)
    (h : ∀ e ∈ entries, ∀ parent position,
      (listing parent position e.2).length = e.2.count) :
    (listingBelow parent position entries).length = countAll entries := by
  induction entries generalizing position with
  | nil => rfl
  | cons e rest ih =>
    obtain ⟨hfirst, hrest⟩ := List.forall_mem_cons.1 h
    rw [listingBelow, List.length_append, hfirst, Node.countAll, ih _ hrest]

theorem length_listing (parent : Option Nat) (position : Nat) (node : Node) :
    (listing parent position node).length = node.count := by
  induction node using Node.induction generalizing parent position with
  | file => rfl
  | directory name attributes entries ih =>
    rw [listing, List.length_cons, length_listingBelow _ _ ih, Node.count]

theorem emit_pendingOf {entries : List (String × Node)}
    (h : ∀ e ∈ entries, ∀ parent position rest,
      emit position ((parent, e.2) :: rest) =
        listing (some parent) position e.2 ++ emit (position + e.2.count) rest)
    (parent position : Nat) (rest : Pending) :
    emit position (pendingOf parent entries ++ rest) =
      listingBelow parent position entries ++ emit (position + countAll entries) rest := by
  induction entries generalizing position with
  | nil => rfl
  | cons e entries ih =>
    obtain ⟨hfirst, hrest⟩ := List.forall_mem_cons.1 h
    rw [pendingOf, List.map_cons, List.cons_append, hfirst, ← pendingOf,
      ih hrest (position + e.2.count), listingBelow, List.append_assoc, Node.countAll,
      Nat.add_assoc]

/-- The work list emits the block of its first node, then the rest. -/
theorem emit_cons (parent position : Nat) (node : Node) (rest : Pending) :
    emit position ((parent, node) :: rest) =
      listing (some parent) position node ++ emit (position + node.count) rest := by
  induction node using Node.induction generalizing parent position rest with
  | file name attributes content =>
    rw [emit]
    rfl
  | directory name attributes entries ih =>
    rw [emit, Node.entries, emit_pendingOf ih, listing, Node.count, Nat.add_right_comm]
    rfl

theorem encode_eq (root : Node) : encode root = listing none 0 root := by
  have hrest := @emit_pendingOf root.entries
    (fun e _ parent position rest => emit_cons parent position e.2 rest) 0 1 []
  rw [List.append_nil, emit, List.append_nil] at hrest
  rw [encode, hrest, listing_eq]

/-! ## Where the entries of a directory stand -/

/-- The nodes of a directory with their positions, the first at `position`. -/
def placed : Nat → List (String × Node) → List (Nat × Node)
  | _, [] => []
  | position, (_, node) :: rest => (position, node) :: placed (position + node.count) rest

theorem map_snd_placed (position : Nat) (entries : List (String × Node)) :
    (placed position entries).map (·.2) = entries.map (·.2) := by
  induction entries generalizing position with
  | nil => rfl
  | cons e rest ih => rw [placed, List.map_cons, List.map_cons, ih]

theorem exists_mem_of_mem_placed {position : Nat} {entries : List (String × Node)}
    {e : Nat × Node} (h : e ∈ placed position entries) : ∃ key, (key, e.2) ∈ entries := by
  have hmem := List.mem_map_of_mem (f := (·.2)) h
  rw [map_snd_placed] at hmem
  obtain ⟨⟨key, node⟩, hmem, rfl⟩ := List.mem_map.1 hmem
  exact ⟨key, hmem⟩

/-- The positions of a directory are those in the blocks of its nodes. -/
theorem exists_placed {position place : Nat} {entries : List (String × Node)}
    (hle : position ≤ place) (hlt : place < position + countAll entries) :
    ∃ e ∈ placed position entries, e.1 ≤ place ∧ place < e.1 + e.2.count := by
  induction entries generalizing position with
  | nil => simp [Node.countAll] at hlt; omega
  | cons e rest ih =>
    rw [Node.countAll] at hlt
    rcases Nat.lt_or_ge place (position + e.2.count) with hbefore | hafter
    · exact ⟨(position, e.2), by simp [placed], hle, hbefore⟩
    · obtain ⟨found, hfound, hplace⟩ := ih hafter (by omega)
      exact ⟨found, by simp [placed, hfound], hplace⟩

/-! ## Links in the pre-order -/

theorem parent_of_mem_listingBelow {entries : List (String × Node)} {parent position : Nat}
    (h : ∀ e ∈ entries, ∀ parent position, ∀ entry ∈ listing (some parent) position e.2,
      ∃ above, entry.parent = some above ∧
        (above = parent ∨ position ≤ above ∧ above < position + e.2.count))
    {entry : Entry} (hentry : entry ∈ listingBelow parent position entries) :
    ∃ above, entry.parent = some above ∧
      (above = parent ∨ position ≤ above ∧ above < position + countAll entries) := by
  induction entries generalizing position with
  | nil => cases hentry
  | cons e rest ih =>
    obtain ⟨hfirst, hrest⟩ := List.forall_mem_cons.1 h
    rw [Node.countAll]
    rw [listingBelow, List.mem_append] at hentry
    rcases hentry with hentry | hentry
    · obtain ⟨above, hparent, habove⟩ := hfirst parent position entry hentry
      exact ⟨above, hparent, by omega⟩
    · obtain ⟨above, hparent, habove⟩ := ih hrest hentry
      exact ⟨above, hparent, by omega⟩

/-- An entry of a block links into the block, but for the first. -/
theorem parent_of_mem_listing {parent position : Nat} {node : Node} {entry : Entry}
    (hentry : entry ∈ listing (some parent) position node) :
    ∃ above, entry.parent = some above ∧
      (above = parent ∨ position ≤ above ∧ above < position + node.count) := by
  induction node using Node.induction generalizing parent position entry with
  | file name attributes content =>
    rw [listing, List.mem_singleton] at hentry
    exact ⟨parent, by rw [hentry], .inl rfl⟩
  | directory name attributes entries ih =>
    rw [listing, List.mem_cons] at hentry
    rw [Node.count]
    rcases hentry with rfl | hentry
    · exact ⟨parent, rfl, .inl rfl⟩
    · obtain ⟨above, hparent, habove⟩ :=
        parent_of_mem_listingBelow (fun e he _ _ _ hmem => ih e he hmem) hentry
      exact ⟨above, hparent, by omega⟩

theorem parent_of_mem_below {entries : List (String × Node)} {parent position : Nat}
    {entry : Entry} (hentry : entry ∈ listingBelow parent position entries) :
    ∃ above, entry.parent = some above ∧
      (above = parent ∨ position ≤ above ∧ above < position + countAll entries) :=
  parent_of_mem_listingBelow (fun _ _ _ _ _ hmem => parent_of_mem_listing hmem) hentry

/-- The entries that link to a directory are the first of the blocks of its nodes. -/
theorem findIdxs_listingBelow {parent position : Nat} (entries : List (String × Node))
    (h : parent < position) :
    (listingBelow parent position entries).findIdxs (·.parent == some parent) position =
      (placed position entries).map (·.1) := by
  induction entries generalizing position with
  | nil => rfl
  | cons e rest ih =>
    have hbelow : (listingBelow position (position + 1) e.2.entries).findIdxs
        (·.parent == some parent) (position + 1) = [] := by
      rw [List.findIdxs_eq_nil_iff]
      intro entry hentry
      obtain ⟨above, habove, hrange⟩ := parent_of_mem_below hentry
      rw [habove, beq_eq_false_iff_ne]
      intro heq
      have : above = parent := Option.some.inj heq
      omega
    have hfirst : (listing (some parent) position e.2).findIdxs (·.parent == some parent) position =
        [position] := by
      rw [listing_eq, List.findIdxs_cons, hbelow, parent_ofNode, if_pos (beq_self_eq_true _)]
    rw [listingBelow, List.findIdxs_append, hfirst, length_listing, placed, List.map_cons,
      ih (by omega)]
    rfl

/-! ## Blocks -/

/-- The entries of a tree stand together from `position` on, and nothing behind them links to
them. -/
def Block (entries : List Entry) (parent : Option Nat) (position : Nat) (node : Node) : Prop :=
  ∃ after, entries.drop position = listing parent position node ++ after ∧
    ∀ entry ∈ after, ∀ above, entry.parent = some above →
      above < position ∨ position + node.count ≤ above

variable {entries : List Entry} {parent : Option Nat} {position : Nat} {node : Node}

theorem block_encode (root : Node) : Block (encode root) none 0 root :=
  ⟨[], by rw [List.drop_zero, encode_eq, List.append_nil], by simp⟩

theorem Block.getElem?_eq (h : Block entries parent position node) :
    entries[position]? = some (Entry.ofNode parent node) := by
  obtain ⟨after, hdrop, -⟩ := h
  have hget : (entries.drop position)[0]? = some (Entry.ofNode parent node) := by
    rw [hdrop, listing_eq]
    rfl
  rwa [List.getElem?_drop, Nat.add_zero] at hget

theorem Block.getElem_eq (h : Block entries parent position node)
    (hlt : position < entries.length) : entries[position] = Entry.ofNode parent node :=
  Option.some.inj ((List.getElem?_eq_getElem hlt).symm.trans h.getElem?_eq)

theorem Block.below (h : Block entries parent position node) :
    ∃ after, entries.drop (position + 1) =
        listingBelow position (position + 1) node.entries ++ after ∧
      ∀ entry ∈ after, ∀ above, entry.parent = some above →
        above < position ∨ position + 1 + countAll node.entries ≤ above := by
  obtain ⟨after, hdrop, hafter⟩ := h
  refine ⟨after, ?_, fun entry hentry above habove => ?_⟩
  · rw [← List.drop_drop, hdrop, listing_eq]
    rfl
  · have hrange := hafter entry hentry above habove
    rw [count_eq] at hrange
    omega

theorem Block.childrenOf_eq (h : Block entries parent position node) :
    childrenOf entries position = (placed (position + 1) node.entries).map (·.1) := by
  obtain ⟨after, hdrop, hafter⟩ := h.below
  have hnone : ∀ start, after.findIdxs (·.parent == some position) start = [] := by
    intro start
    rw [List.findIdxs_eq_nil_iff]
    intro entry hentry
    rw [beq_eq_false_iff_ne]
    intro hparent
    have hrange := hafter entry hentry position hparent
    omega
  rw [childrenOf, hdrop, List.findIdxs_append, hnone, List.append_nil,
    findIdxs_listingBelow _ (Nat.lt_succ_self _)]

theorem block_of_listingBelow {own after : List Entry} {parent position : Nat}
    {below : List (String × Node)} (hlt : parent < position)
    (hdrop : own.drop position = listingBelow parent position below ++ after)
    (hafter : ∀ entry ∈ after, ∀ above, entry.parent = some above →
      above < position ∨ position + countAll below ≤ above)
    {e : Nat × Node} (he : e ∈ placed position below) : Block own (some parent) e.1 e.2 := by
  induction below generalizing position with
  | nil => cases he
  | cons first rest ih =>
    rw [listingBelow, List.append_assoc] at hdrop
    rw [Node.countAll] at hafter
    rcases List.mem_cons.1 he with rfl | he
    · refine ⟨_, hdrop, fun entry hentry above habove => ?_⟩
      rcases List.mem_append.1 hentry with hentry | hentry
      · obtain ⟨link, hlink, hrange⟩ := parent_of_mem_below hentry
        cases habove.symm.trans hlink
        dsimp only
        omega
      · have hrange := hafter entry hentry above habove
        dsimp only
        omega
    · refine ih (Nat.lt_add_right _ hlt) ?_ (fun entry hentry above habove => ?_) he
      · rw [← List.drop_drop, hdrop, List.drop_left' (length_listing ..)]
      · have hrange := hafter entry hentry above habove
        omega

/-- The nodes of a directory have blocks of their own. -/
theorem Block.of_placed (h : Block entries parent position node) {e : Nat × Node}
    (he : e ∈ placed (position + 1) node.entries) : Block entries (some position) e.1 e.2 := by
  obtain ⟨after, hdrop, hafter⟩ := h.below
  refine block_of_listingBelow (Nat.lt_succ_self _) hdrop (fun entry hentry above habove => ?_) he
  have hrange := hafter entry hentry above habove
  omega

/-- What holds of a node and passes from a directory to its nodes holds at every position of the
block. -/
theorem Block.forall {motive : Nat → Node → Prop} (h : Block entries parent position node)
    (hstart : motive position node)
    (hstep : ∀ parent place directory, Block entries parent place directory →
      motive place directory → ∀ e ∈ placed (place + 1) directory.entries, motive e.1 e.2)
    {place : Nat} (hle : position ≤ place) (hlt : place < position + node.count) :
    ∃ parent node, Block entries parent place node ∧ motive place node := by
  induction node using Node.induction generalizing parent position with
  | file name attributes content =>
    rw [Node.count] at hlt
    obtain rfl : position = place := by omega
    exact ⟨parent, _, h, hstart⟩
  | directory name attributes below ih =>
    rcases Nat.eq_or_lt_of_le hle with rfl | hbehind
    · exact ⟨parent, _, h, hstart⟩
    · have hlast : place < position + 1 + countAll below := by rw [Node.count] at hlt; omega
      obtain ⟨e, he, hfirst, hlast⟩ := exists_placed hbehind hlast
      obtain ⟨key, hkey⟩ := exists_mem_of_mem_placed he
      exact ih _ hkey (h.of_placed he) (hstep _ _ _ h hstart e he) hfirst hlast

theorem subtreesBelow_eq {nodes : List (Nat × Node)}
    (hchildren : childrenOf entries position = nodes.map (·.1))
    (h : ∀ e ∈ nodes, ∀ hlt, subtree entries e.1 hlt = e.2) :
    subtreesBelow entries position = nodes.map (·.2) := by
  have hlength : (subtreesBelow entries position).length = nodes.length := by
    rw [subtreesBelow, List.length_pmap, hchildren, List.length_map]
  refine List.ext_getElem (by rw [hlength, List.length_map]) fun i hi hmap => ?_
  have hnode : i < nodes.length := by rwa [List.length_map] at hmap
  have hchild : (childrenOf entries position)[i]? = some nodes[i].1 := by
    rw [hchildren, List.getElem?_map, List.getElem?_eq_getElem hnode]
    rfl
  obtain ⟨hi, hposition⟩ := List.getElem?_eq_some_iff.1 hchild
  simp only [subtreesBelow, List.getElem_pmap, List.getElem_map, hposition]
  exact h _ (List.getElem_mem hnode) _

/-- The tree at the head of a block is the node itself. -/
theorem Block.subtree_eq {ok : Time.Stamp → Prop} {levels : Nat}
    (h : Block entries parent position node) (hsound : node.Sound ok levels)
    (hlt : position < entries.length) : subtree entries position hlt = node := by
  induction hsound generalizing parent position with
  | file content ht =>
    rw [Snapshot.subtree_eq, h.getElem_eq hlt]
    rfl
  | @directory levels name attributes below ht hfiled hall ih =>
    have hbelow : subtreesBelow entries position = below.map (·.2) := by
      rw [subtreesBelow_eq h.childrenOf_eq, Node.entries, map_snd_placed]
      intro e he hlt'
      obtain ⟨key, hkey⟩ := exists_mem_of_mem_placed he
      exact ih _ hkey (h.of_placed he) hlt'
    have hkeys : Node.byName (below.map (·.2)) = below := by
      rw [Node.byName, List.map_map]
      conv_rhs => rw [← List.map_id below]
      refine List.map_congr_left fun e he => ?_
      exact Prod.ext (hfiled.key_eq e he).symm rfl
    rw [Snapshot.subtree_eq, h.getElem_eq hlt, hbelow]
    exact congrArg (Node.directory name attributes) hkeys

/-! ## Entries of a sound tree -/

/-- What is known of the node at a position: it fills the levels that its depth leaves, and but for
the root it has the name of an entry and a directory above it. -/
def Fits (ok : Time.Stamp → Prop) (entries : List Entry) (position : Nat) (node : Node) : Prop :=
  ∃ levels, node.Sound ok levels ∧ depth entries position + levels ≤ Path.maxDepth + 1 ∧
    (0 < position → Path.isName node.name ∧ ∃ entry parent above,
      entries[position]? = some entry ∧ entry.parent = some parent ∧ parent < position ∧
        entries[parent]? = some above ∧ above.isDirectory)

theorem Block.fits_placed {ok : Time.Stamp → Prop} (h : Block entries parent position node)
    (hfits : Fits ok entries position node) {e : Nat × Node}
    (he : e ∈ placed (position + 1) node.entries) : Fits ok entries e.1 e.2 := by
  obtain ⟨levels, hsound, hdepth, -⟩ := hfits
  obtain ⟨key, hkey⟩ := exists_mem_of_mem_placed he
  have hchild : e.1 ∈ childrenOf entries position := by
    rw [h.childrenOf_eq]
    exact List.mem_map_of_mem he
  obtain ⟨hlt, entry, hentry, hparent⟩ := mem_childrenOf.1 hchild
  have hbelow := depth_of_parent hentry hparent hlt
  cases hsound with
  | file => simp [Node.entries] at hkey
  | @directory levels _ _ _ _ hfiled hall =>
    refine ⟨levels, hall _ hkey, by omega, fun _ => ⟨?_, entry, position, _, hentry, hparent, hlt,
      h.getElem?_eq, rfl⟩⟩
    have hname := hfiled.key_eq _ hkey
    exact hname ▸ hfiled.named (key, e.2) hkey

section
variable {ok : Time.Stamp → Prop} {root : Node}

theorem length_encode (root : Node) : (encode root).length = root.count := by
  rw [encode_eq, length_listing]

/-- Every position of the list has its node. -/
theorem exists_block (hsound : root.Sound ok (Path.maxDepth + 1)) {position : Nat}
    (hlt : position < (encode root).length) :
    ∃ parent node, Block (encode root) parent position node ∧
      Fits ok (encode root) position node := by
  rw [length_encode] at hlt
  have hdepth : depth (encode root) 0 = 0 := by
    rw [depth]
    split
    · rfl
    · rw [if_neg (Nat.not_lt_zero _)]
  refine (block_encode root).forall (motive := Fits ok (encode root)) ?_
    (fun _ _ _ hblock hfits _ he => hblock.fits_placed hfits he) (Nat.zero_le position) (by omega)
  exact ⟨_, hsound, by omega, fun hpos => absurd hpos (Nat.lt_irrefl 0)⟩

/-- Two entries of one directory have different names. -/
theorem Block.name_ne (h : Block entries parent position node)
    (hfits : Fits ok entries position node) {i j : Nat} {a b : Entry}
    (hi : i ∈ childrenOf entries position) (hj : j ∈ childrenOf entries position) (hne : i ≠ j)
    (ha : entries[i]? = some a) (hb : entries[j]? = some b) : a.name ≠ b.name := by
  obtain ⟨levels, hsound, -⟩ := hfits
  have hnodup : ((placed (position + 1) node.entries).map (·.2.name)).Nodup := by
    have hnames := hsound.filed.nodup_names
    have hmap := congrArg (List.map Node.name) (map_snd_placed (position + 1) node.entries)
    rw [List.map_map, List.map_map] at hmap
    exact hmap ▸ hnames
  rw [h.childrenOf_eq] at hi hj
  obtain ⟨e, he, rfl⟩ := List.mem_map.1 hi
  obtain ⟨f, hf, rfl⟩ := List.mem_map.1 hj
  cases ha.symm.trans (h.of_placed he).getElem?_eq
  cases hb.symm.trans (h.of_placed hf).getElem?_eq
  rw [name_ofNode, name_ofNode]
  intro hname
  exact hne (congrArg (·.1) (List.inj_on_of_nodup_map hnodup he hf hname))

/-- An entry that links to a position stands behind it. -/
theorem mem_childrenOf_encode (hsound : root.Sound ok (Path.maxDepth + 1)) {position link : Nat}
    {entry : Entry} (hentry : (encode root)[position]? = some entry)
    (hlink : entry.parent = some link) :
    position ∈ childrenOf (encode root) link := by
  have hpos : 0 < position := by
    refine Nat.pos_of_ne_zero ?_
    rintro rfl
    cases hentry.symm.trans (block_encode root).getElem?_eq
    rw [parent_ofNode] at hlink
    cases hlink
  obtain ⟨_, _, _, _, _, _, hfits⟩ := exists_block hsound (List.getElem?_eq_some_iff.1 hentry).1
  obtain ⟨-, found, parent, _, hfound, hparent, hlt, -⟩ := hfits hpos
  cases hentry.symm.trans hfound
  cases hlink.symm.trans hparent
  exact mem_childrenOf.2 ⟨hlt, entry, hentry, hparent⟩

theorem pairwise_encode (hsound : root.Sound ok (Path.maxDepth + 1)) :
    (encode root).Pairwise fun a b => a.parent = b.parent → a.name ≠ b.name := by
  rw [List.pairwise_iff_getElem]
  intro i j hi hj hlt hsame
  have ha := List.getElem?_eq_getElem hi
  have hb := List.getElem?_eq_getElem hj
  obtain ⟨_, _, _, _, _, _, hfits⟩ := exists_block hsound hj
  obtain ⟨-, entry, parent, _, hentry, hparent, hbefore, -⟩ := hfits (by omega)
  cases hb.symm.trans hentry
  obtain ⟨_, _, hblock, hblockFits⟩ := exists_block hsound (show parent < _ by omega)
  exact hblock.name_ne hblockFits (mem_childrenOf_encode hsound ha (hsame.trans hparent))
    (mem_childrenOf_encode hsound hb hparent) (Nat.ne_of_lt hlt) ha hb

theorem accepted_encode (hname : root.name = rootName) (hdir : root.isDirectory)
    (hsound : root.Sound ok (Path.maxDepth + 1)) : Accepted (encode root) where
  root := by
    refine ⟨_, (block_encode root).getElem?_eq, ?_, ?_, ?_⟩
    · rw [isDirectory_ofNode, hdir]
    · rw [name_ofNode, hname]
    · rw [parent_ofNode]
  linked position entry hentry hpos := by
    obtain ⟨_, _, _, _, _, _, hfits⟩ :=
      exists_block hsound (List.getElem?_eq_some_iff.1 hentry).1
    obtain ⟨-, found, parent, above, hfound, hlink⟩ := hfits hpos
    cases hentry.symm.trans hfound
    exact ⟨parent, above, hlink⟩
  named position entry hentry hpos := by
    obtain ⟨_, node, hblock, _, -, -, hfits⟩ :=
      exists_block hsound (List.getElem?_eq_some_iff.1 hentry).1
    cases hentry.symm.trans hblock.getElem?_eq
    rw [name_ofNode]
    exact (hfits hpos).1
  distinct := pairwise_encode hsound
  sized entry hentry content size hbody := by
    obtain ⟨position, hlt, rfl⟩ := List.getElem_of_mem hentry
    obtain ⟨_, node, hblock, -⟩ := exists_block hsound hlt
    rw [hblock.getElem_eq hlt] at hbody
    exact size_ofNode hbody
  shallow position entry hentry hdirectory := by
    obtain ⟨_, node, hblock, levels, hlevels, hdepth, -⟩ :=
      exists_block hsound (List.getElem?_eq_some_iff.1 hentry).1
    cases hentry.symm.trans hblock.getElem?_eq
    rw [isDirectory_ofNode] at hdirectory
    obtain ⟨below, rfl, -⟩ := hlevels.of_isDirectory hdirectory
    omega

/-- A sound tree is decoded from its entries. -/
theorem decode_encode (hname : root.name = rootName) (hdir : root.isDirectory)
    (hsound : root.Sound ok (Path.maxDepth + 1)) : decode (encode root) = .ok root := by
  have hlt : 0 < (encode root).length := by
    rw [length_encode, count_eq]
    exact Nat.succ_pos _
  exact decode_eq_ok_iff.2 ⟨accepted_encode hname hdir hsound, hlt,
    ((block_encode root).subtree_eq hsound hlt).symm⟩

end

end PocketShell.Snapshot
