import PocketShell.Proofs.Yields
import PocketShell.Proofs.Snapshot.Accepted
import PocketShell.Proofs.Tree.Sound
import Mathlib.Data.List.Nodup

/-!
# Decoding accepts the snapshots of trees

Each of the three passes is described from both sides: if it ends well, a part of `Accepted` holds
and what it leaves behind is known; if it fails, the list is not accepted, and the fault is not one
of a decoder that has lost track of a node. The assembly keeps the invariant `Gathered`: above the
position it has reached, the place of an entry whose parent is still to come holds the whole tree
of that entry; below it, every place holds the bare node of its entry.
-/

namespace PocketShell.Snapshot

/-- A fault is justified for a list that is not accepted, and only a fault of the list itself. -/
def Justified (entries : List Entry) (fault : Fault) : Prop :=
  ¬ Accepted entries ∧ fault.isInternal = false

/-! ## Links -/

theorem depth_of_parent {entries : List Entry} {position parent : Nat} {entry : Entry}
    (hentry : entries[position]? = some entry) (hparent : entry.parent = some parent)
    (hlt : parent < position) : depth entries position = depth entries parent + 1 := by
  rw [depth]
  simp [hentry, hparent, hlt]

/-- Depths depend on earlier entries only. -/
theorem depth_append (entries rest : List Entry) {position : Nat} (h : position < entries.length) :
    depth (entries ++ rest) position = depth entries position := by
  induction position using Nat.strongRecOn with
  | ind position ih =>
    rw [depth, depth, List.getElem?_append_left h]
    cases hparent : entries[position]?.bind (·.parent) with
    | none => rfl
    | some parent =>
      by_cases hlt : parent < position
      · simp [hlt, ih parent hlt (by omega)]
      · simp [hlt]

theorem childrenOf_append_singleton {entries : List Entry} {entry : Entry} {position : Nat}
    (h : position < entries.length) :
    childrenOf (entries ++ [entry]) position =
      childrenOf entries position ++
        if entry.parent = some position then [entries.length] else [] := by
  have hdrop : (entries ++ [entry]).drop (position + 1) = entries.drop (position + 1) ++ [entry] :=
    List.drop_append_of_le_length (by omega)
  have hstart : position + 1 + (entries.length - (position + 1)) = entries.length := by omega
  simp only [childrenOf, hdrop, List.findIdxs_append, List.length_drop, hstart,
    List.findIdxs_singleton, beq_iff_eq]

theorem childrenOf_eq_nil {entries : List Entry} {position : Nat}
    (h : entries.length ≤ position + 1) : childrenOf entries position = [] := by
  simp [childrenOf, List.drop_eq_nil_of_le h]

/-- The links hold the depths and the children of the entries so far, all of which are linked. -/
structure LinksOf (entries : List Entry) (links : Links) : Prop where
  size_depths : links.depths.size = entries.length
  size_children : links.children.size = entries.length
  depth_eq : ∀ position entry, entries[position]? = some entry →
    links.depths[position]? =
      some (if entry.isDirectory then some (depth entries position) else none)
  children_eq : ∀ position < entries.length,
    links.children[position]? = some (childrenOf entries position).toArray
  linked : ∀ position entry, entries[position]? = some entry → 0 < position →
    ∃ parent above, entry.parent = some parent ∧ parent < position ∧
      entries[parent]? = some above ∧ above.isDirectory
  shallow : ∀ position entry, entries[position]? = some entry → entry.isDirectory →
    depth entries position ≤ Path.maxDepth

theorem linksOf_root {root : Entry} (hdir : root.isDirectory) (hparent : root.parent = none) :
    LinksOf [root] Links.ofRoot := by
  have hdepth : depth [root] 0 = 0 := by rw [depth]; simp [hparent]
  have hroot : ∀ {position entry},
      [root][position]? = some entry → position = 0 ∧ entry = root := by
    intro position entry hentry
    obtain ⟨hlt, rfl⟩ := List.getElem?_eq_some_iff.1 hentry
    simp only [List.length_singleton, Nat.lt_one_iff] at hlt
    subst hlt
    exact ⟨rfl, rfl⟩
  refine ⟨rfl, rfl, ?_, ?_, ?_, ?_⟩
  · intro position entry hentry
    obtain ⟨rfl, rfl⟩ := hroot hentry
    simp [Links.ofRoot, hdir, hdepth]
  · intro position hlt
    rw [List.length_singleton, Nat.lt_one_iff] at hlt
    subst hlt
    rw [childrenOf_eq_nil (by simp)]
    rfl
  · intro position entry hentry hpos
    have := (hroot hentry).1
    omega
  · intro position entry hentry _
    rw [(hroot hentry).1, hdepth]
    omega

/-- An entry of a list that has grown by one is old or the new one. -/
theorem getElem?_concat_eq_some {entries : List Entry} {entry found : Entry} {position : Nat}
    (h : (entries ++ [entry])[position]? = some found) :
    entries[position]? = some found ∨ (position = entries.length ∧ found = entry) := by
  rcases Nat.lt_trichotomy position entries.length with hlt | rfl | hgt
  · exact .inl (by rwa [List.getElem?_append_left hlt] at h)
  · exact .inr ⟨rfl, by simpa using h.symm⟩
  · rw [List.getElem?_eq_none (by simp; omega)] at h
    cases h

/-- The links with an entry whose parent is a directory before it and which is not too deep. -/
theorem LinksOf.add {entries : List Entry} {links : Links} {entry above : Entry} {parent : Nat}
    (h : LinksOf entries links) (hparent : entry.parent = some parent)
    (habove : entries[parent]? = some above) (hdir : above.isDirectory)
    (hdeep : entry.isDirectory → depth entries parent + 1 ≤ Path.maxDepth) :
    LinksOf (entries ++ [entry])
      { depths := links.depths.push
          (if entry.isDirectory then some (depth entries parent + 1) else none)
        children := (links.children.modify parent (·.push links.depths.size)).push #[] } := by
  have hlt : parent < entries.length := (List.getElem?_eq_some_iff.1 habove).1
  have hnew : depth (entries ++ [entry]) entries.length = depth entries parent + 1 := by
    rw [depth_of_parent (by simp) hparent hlt, depth_append _ _ hlt]
  refine ⟨by simp [h.size_depths], by simp [h.size_children], ?_, ?_, ?_, ?_⟩
  · intro position found hfound
    rcases getElem?_concat_eq_some hfound with hold | ⟨rfl, rfl⟩
    · have hpos := (List.getElem?_eq_some_iff.1 hold).1
      rw [Array.getElem?_push_lt (by rw [h.size_depths]; exact hpos), depth_append _ _ hpos,
        ← h.depth_eq position found hold, Array.getElem?_eq_getElem]
    · rw [← h.size_depths, Array.getElem?_push_size, h.size_depths, hnew]
  · intro position hpos
    rw [List.length_append, List.length_singleton] at hpos
    rw [Array.getElem?_push, Array.size_modify, h.size_children]
    rcases Nat.lt_or_eq_of_le (Nat.lt_succ_iff.1 hpos) with hpos | rfl
    · rw [if_neg (by omega), childrenOf_append_singleton hpos, Array.getElem?_modify,
        h.children_eq position hpos, h.size_depths, hparent]
      by_cases heq : parent = position
      · simp [heq]
      · simp [heq]
    · rw [if_pos rfl, childrenOf_eq_nil (by simp)]
  · intro position found hfound hpos
    rcases getElem?_concat_eq_some hfound with hold | ⟨rfl, rfl⟩
    · obtain ⟨p, a, hp, hlt, ha, hd⟩ := h.linked position found hold hpos
      exact ⟨p, a, hp, hlt, List.getElem?_append_left (List.getElem?_eq_some_iff.1 ha).1 ▸ ha, hd⟩
    · exact ⟨parent, above, hparent, hlt, by rw [List.getElem?_append_left hlt]; exact habove, hdir⟩
  · intro position found hfound hd
    rcases getElem?_concat_eq_some hfound with hold | ⟨rfl, rfl⟩
    · rw [depth_append _ _ (List.getElem?_eq_some_iff.1 hold).1]
      exact h.shallow position found hold hd
    · rw [hnew]; exact hdeep hd

/-- What stands at a parent for which the links have a depth. -/
theorem LinksOf.of_depth {entries : List Entry} {links : Links} {position above : Nat}
    (h : LinksOf entries links) (hdepth : links.depths[position]? = some (some above)) :
    ∃ entry, entries[position]? = some entry ∧ entry.isDirectory ∧
      above = depth entries position := by
  have hlt : position < entries.length := by
    rw [← h.size_depths]
    exact (Array.getElem?_eq_some_iff.1 hdepth).1
  have hentry := List.getElem?_eq_getElem hlt
  rw [h.depth_eq _ _ hentry] at hdepth
  by_cases hdir : entries[position].isDirectory
  · exact ⟨_, hentry, hdir, by simpa [hdir] using hdepth.symm⟩
  · simp [hdir] at hdepth

theorem links_add_yields {entries done rest : List Entry} {entry : Entry} {links : Links}
    (hentries : entries = done ++ entry :: rest) (hdone : 0 < done.length)
    (h : LinksOf done links) :
    Yields (LinksOf (done ++ [entry])) (Justified entries) (links.add entry) := by
  have hentry : entries[done.length]? = some entry := by simp [hentries]
  have hbefore : ∀ {position}, position < done.length → entries[position]? = done[position]? :=
    fun hlt => by rw [hentries, List.getElem?_append_left hlt]
  unfold Links.add
  cases hparent : entry.parent with
  | none =>
    refine ⟨fun hacc => ?_, rfl⟩
    obtain ⟨parent, -, hsome, -⟩ := hacc.linked _ _ hentry hdone
    rw [hparent] at hsome
    cases hsome
  | some parent =>
    simp only [pure, Except.pure, throw_eq_error, bind, Except.bind]
    split
    · rename_i above hdepth
      obtain ⟨directory, hdirectory, hdir, rfl⟩ := h.of_depth hdepth
      have hlt := (List.getElem?_eq_some_iff.1 hdirectory).1
      split
      · rename_i hdeep
        rw [Bool.and_eq_true, decide_eq_true_eq] at hdeep
        refine ⟨fun hacc => ?_, rfl⟩
        have hshallow := hacc.shallow _ _ hentry hdeep.1
        rw [depth_of_parent hentry hparent hlt, hentries, depth_append _ _ hlt] at hshallow
        omega
      · rename_i hdeep
        refine h.add hparent hdirectory hdir fun hd => ?_
        simp only [hd, Bool.true_and, decide_eq_true_eq] at hdeep
        omega
    · rename_i hdepth
      refine ⟨fun hacc => ?_, rfl⟩
      obtain ⟨parent', above, hsome, hlt, habove, hdir⟩ := hacc.linked _ _ hentry hdone
      cases hparent.symm.trans hsome
      rw [hbefore hlt] at habove
      refine hdepth (depth done parent) ?_
      rw [h.depth_eq _ _ habove, if_pos hdir]

/-- The first pass links all entries, or the list is not accepted. -/
theorem links_ofEntries_yields {root : Entry} (rest : List Entry) (hdir : root.isDirectory)
    (hparent : root.parent = none) :
    Yields (LinksOf (root :: rest)) (Justified (root :: rest)) (Links.ofEntries rest) := by
  refine Yields.foldlM (fun done => LinksOf (root :: done)) (linksOf_root hdir hparent) ?_
  intro done entry rest' links hrest h
  have hentries : root :: rest = (root :: done) ++ entry :: rest' := by rw [hrest]; rfl
  exact links_add_yields hentries (Nat.succ_pos _) h

/-! ## Contents -/

/-- The node of an entry whose directory is not put together yet. -/
abbrev bare (entry : Entry) : Node := entry.withChildren []

theorem node_yields {entries : List Entry} {entry : Entry} (hmem : entry ∈ entries) :
    Yields (fun node => node = bare entry ∧
        ∀ content size, entry.body = .file content size → size = content.utf8ByteSize)
      (Justified entries) entry.node := by
  unfold Entry.node bare Entry.withChildren
  cases hbody : entry.body with
  | directory => exact ⟨rfl, by simp⟩
  | file content size =>
    simp only
    split
    · rename_i hsize
      refine ⟨rfl, fun content' size' heq => ?_⟩
      cases heq
      exact hsize
    · rename_i hsize
      exact ⟨fun hacc => hsize (hacc.sized entry hmem content size hbody), rfl⟩

theorem namedNode_yields {root entry : Entry} {rest : List Entry} (hmem : entry ∈ rest) :
    Yields (fun node => node = bare entry ∧ (Path.isName entry.name ∧
        ∀ content size, entry.body = .file content size → size = content.utf8ByteSize))
      (Justified (root :: rest)) entry.namedNode := by
  unfold Entry.namedNode
  refine (node_yields (List.mem_cons_of_mem root hmem)).bind fun node hnode => ?_
  obtain ⟨rfl, hsized⟩ := hnode
  rw [Entry.name_withChildren]
  split
  · rename_i hvalid
    exact ⟨rfl, hvalid, hsized⟩
  · rename_i hinvalid
    refine ⟨fun hacc => hinvalid ?_, rfl⟩
    obtain ⟨index, hlt, hindex⟩ := List.getElem_of_mem hmem
    exact hacc.named (index + 1) entry (by simp [hindex, hlt]) (by omega)

/-! ## Assembly -/

section
variable {places : Places}

theorem node?_setIfInBounds_self {position : Nat} (h : position < places.size)
    (node : Option Node) :
    Places.node? (places.setIfInBounds position node) position = node := by
  simp [Places.node?, h]

theorem node?_setIfInBounds_ne {position other : Nat} (h : position ≠ other)
    (node : Option Node) :
    Places.node? (places.setIfInBounds position node) other = places.node? other := by
  simp [Places.node?, Array.getElem?_setIfInBounds_ne h]

theorem adopt_eq {directory node : Node} {child : Nat} (h : places.node? child = some node) :
    adopt (directory, places) child =
      match directory.insert? node with
      | some directory => .ok (directory, places.setIfInBounds child none)
      | none => .error (.duplicate node.name directory.name) := by
  simp only [adopt, h]
  rfl

/-- All children are filed in order, or two names clash. -/
theorem adopt_foldlM_yields {own : List (Nat × Node)} (name : String) (attributes : Attributes)
    (filed : List (String × Node)) (hnodup : (own.map (·.1)).Nodup)
    (hplaces : ∀ c ∈ own, places.node? c.1 = some c.2) (hfiled : (filed.map (·.1)).Nodup) :
    Yields
      (fun r : Node × Places =>
        r.1 = .directory name attributes (filed ++ Node.byName (own.map (·.2))) ∧
          r.2.size = places.size ∧
          (∀ position ∉ own.map (·.1), r.2.node? position = places.node? position) ∧
          (filed.map (·.1) ++ own.map (·.2.name)).Nodup)
      (fun fault => ¬ (filed.map (·.1) ++ own.map (·.2.name)).Nodup ∧ fault.isInternal = false)
      ((own.map (·.1)).foldlM adopt (.directory name attributes filed, places)) := by
  induction own generalizing filed places with
  | nil => exact ⟨by simp [Node.byName], rfl, fun _ _ => rfl, by simpa using hfiled⟩
  | cons c own ih =>
    obtain ⟨child, node⟩ := c
    rw [List.map_cons, List.nodup_cons] at hnodup
    have hnode : places.node? child = some node := hplaces (child, node) (by simp)
    simp only [List.map_cons, List.foldlM_cons, adopt_eq hnode]
    cases hinsert : (Node.directory name attributes filed).insert? node with
    | none =>
      -- the name is taken by an entry filed before
      have hmem : node.name ∈ filed.map (·.1) := Node.insert?_eq_none.1 hinsert
      exact ⟨fun hall => (List.nodup_append.1 hall).2.2 _ hmem _ (by simp) rfl, rfl⟩
    | some changed =>
      obtain ⟨hnew, rfl⟩ := Node.insert?_eq_some hinsert
      have hfiled' := Node.nodup_keys_append node hfiled hnew
      have hplaces' : ∀ c ∈ own,
          Places.node? (places.setIfInBounds child none) c.1 = some c.2 := by
        intro c hc
        have hne : child ≠ c.1 := by
          rintro rfl
          exact hnodup.1 (List.mem_map.2 ⟨c, hc, rfl⟩)
        rw [node?_setIfInBounds_ne hne, hplaces c (List.mem_cons_of_mem _ hc)]
      refine (ih _ hnodup.2 hplaces' hfiled').mono ?_ ?_
      · rintro ⟨directory, rest⟩ ⟨hdirectory, hsize, hothers, hall⟩
        refine ⟨by simpa [Node.byName] using hdirectory, by simpa using hsize, ?_, ?_⟩
        · intro position hposition
          rw [List.mem_cons, not_or] at hposition
          rw [hothers position hposition.2, node?_setIfInBounds_ne (Ne.symm hposition.1)]
        · simpa using hall
      · intro fault hfault
        simpa using hfault

end

/-! ### From the last directory to the first -/

/-- The places when the entries from `position` on are put together. -/
structure Gathered (entries : List Entry) (position : Nat) (places : Places) : Prop where
  size_eq : places.size = entries.length
  /-- What is still to come is as the second pass has left it. -/
  pending : ∀ i (h : i < entries.length), i < position → places.node? i = some (bare entries[i])
  /-- What no directory has taken yet is complete. -/
  complete : ∀ i (h : i < entries.length), position ≤ i →
    (∀ parent, entries[i].parent = some parent → parent < position) →
      places.node? i = some (subtree entries i h)
  distinct : ∀ i, position ≤ i → ((subtreesBelow entries i).map Node.name).Nodup

theorem subtreesBelow_eq_nil {entries : List Entry} {position : Nat}
    (h : childrenOf entries position = []) : subtreesBelow entries position = [] := by
  simp [subtreesBelow, h]

/-- What has children is a directory. -/
theorem LinksOf.isDirectory_of_mem {entries : List Entry} {links : Links} {position child : Nat}
    (h : LinksOf entries links) (hposition : position < entries.length)
    (hchild : child ∈ childrenOf entries position) : entries[position].isDirectory := by
  obtain ⟨hlt, entry, hentry, hparent⟩ := mem_childrenOf.1 hchild
  obtain ⟨parent, above, hsome, -, habove, hdir⟩ := h.linked child entry hentry (by omega)
  cases hparent.symm.trans hsome
  rw [List.getElem?_eq_getElem hposition] at habove
  cases habove
  exact hdir

theorem placed_of_mem {entries : List Entry} {places : Places} {position : Nat}
    (h : Gathered entries (position + 1) places) {c : Nat × Node}
    (hc : c ∈ placedBelow entries position) :
    c.1 ∈ childrenOf entries position ∧ places.node? c.1 = some c.2 := by
  obtain ⟨child, hchild, rfl⟩ := List.mem_pmap.1 hc
  refine ⟨hchild, h.complete child _ (lt_of_mem_childrenOf hchild).1 fun parent hparent => ?_⟩
  obtain ⟨-, entry, hentry, hsome⟩ := mem_childrenOf.1 hchild
  obtain ⟨_, rfl⟩ := List.getElem?_eq_some_iff.1 hentry
  cases hparent.symm.trans hsome
  exact Nat.lt_succ_self _

/-- Nothing to be done for an entry without children. -/
theorem Gathered.of_childless {entries : List Entry} {places : Places} {position : Nat}
    (h : Gathered entries (position + 1) places) (hnone : childrenOf entries position = []) :
    Gathered entries position places where
  size_eq := h.size_eq
  pending i hi hlt := h.pending i hi (by omega)
  complete i hi hle hparent := by
    rcases Nat.lt_or_eq_of_le hle with hlt | rfl
    · exact h.complete i hi hlt fun parent hp => Nat.lt_succ_of_lt (hparent parent hp)
    · rw [h.pending position hi (Nat.lt_succ_self _), subtree_eq, subtreesBelow_eq_nil hnone]
  distinct i hle := by
    rcases Nat.lt_or_eq_of_le hle with hlt | rfl
    · exact h.distinct i hlt
    · simp [subtreesBelow_eq_nil hnone]

/-- The places once a directory has taken its children and stands in its own place again. -/
theorem Gathered.of_adopted {entries : List Entry} {places adopted : Places} {position : Nat}
    (h : Gathered entries (position + 1) places) (hlt : position < entries.length)
    (hsize : adopted.size = places.size)
    (hothers : ∀ i ∉ childrenOf entries position, i ≠ position →
      adopted.node? i = places.node? i)
    (hnodup : ((subtreesBelow entries position).map Node.name).Nodup) :
    Gathered entries position
      (adopted.setIfInBounds position (some (subtree entries position hlt))) where
  size_eq := by rw [Array.size_setIfInBounds, hsize, h.size_eq]
  pending i hi hi' := by
    have hnot : i ∉ childrenOf entries position := fun hmem => by
      have := (lt_of_mem_childrenOf hmem).1
      omega
    rw [node?_setIfInBounds_ne (by omega), hothers i hnot (by omega), h.pending i hi (by omega)]
  complete i hi hle hparent := by
    rcases Nat.lt_or_eq_of_le hle with hlt' | rfl
    · have hnot : i ∉ childrenOf entries position := fun hmem => by
        obtain ⟨-, entry, hentry, hsome⟩ := mem_childrenOf.1 hmem
        obtain ⟨_, rfl⟩ := List.getElem?_eq_some_iff.1 hentry
        exact absurd (hparent position hsome) (Nat.lt_irrefl _)
      rw [node?_setIfInBounds_ne (by omega), hothers i hnot (by omega)]
      exact h.complete i hi hlt' fun parent hp => Nat.lt_succ_of_lt (hparent parent hp)
    · rw [node?_setIfInBounds_self (by rw [hsize, h.size_eq]; exact hi)]
  distinct i hle := by
    rcases Nat.lt_or_eq_of_le hle with hlt' | rfl
    · exact h.distinct i hlt'
    · exact hnodup

theorem gather_yields {entries : List Entry} {links : Links} {places : Places} {position : Nat}
    (hlinks : LinksOf entries links) (hlt : position < entries.length)
    (h : Gathered entries (position + 1) places) :
    Yields (Gathered entries position)
      (fun fault => ¬ ((subtreesBelow entries position).map Node.name).Nodup ∧
        fault.isInternal = false)
      (gather links.children position places) := by
  have hown : links.children.getD position #[] = (childrenOf entries position).toArray := by
    simp [Array.getD_eq_getD_getElem?, hlinks.children_eq position hlt]
  unfold gather
  simp only [hown, List.isEmpty_toArray, List.foldlM_toArray]
  cases hchildren : childrenOf entries position with
  | nil => exact h.of_childless hchildren
  | cons child others =>
    have hchild : child ∈ childrenOf entries position := by simp [hchildren]
    have hdir := hlinks.isDirectory_of_mem hlt hchild
    have hbare : bare entries[position] =
        .directory entries[position].name entries[position].attributes [] :=
      Entry.withChildren_of_isDirectory hdir []
    have hplaces : ∀ c ∈ placedBelow entries position,
        Places.node? (places.setIfInBounds position none) c.1 = some c.2 := by
      intro c hc
      obtain ⟨hmem, hnode⟩ := placed_of_mem h hc
      have := (lt_of_mem_childrenOf hmem).1
      rw [node?_setIfInBounds_ne (by omega), hnode]
    have hdistinct : ((placedBelow entries position).map (·.1)).Nodup := by
      rw [map_fst_placedBelow]
      exact (pairwise_childrenOf entries position).imp Nat.ne_of_lt
    have hadopted := adopt_foldlM_yields entries[position].name entries[position].attributes []
      hdistinct hplaces (by simp)
    simp only [map_fst_placedBelow, map_snd_placedBelow, map_name_placedBelow, List.nil_append,
      List.map_nil] at hadopted
    rw [← hchildren, if_neg (by simp [hchildren]), h.pending position hlt (Nat.lt_succ_self _),
      hbare]
    refine hadopted.bind ?_
    rintro ⟨directory, adopted⟩ ⟨rfl, hsize, hothers, hnodup⟩
    have hsubtree : subtree entries position hlt = .directory entries[position].name
        entries[position].attributes (Node.byName (subtreesBelow entries position)) := by
      rw [subtree_eq, Entry.withChildren_of_isDirectory hdir]
    rw [← hsubtree]
    refine h.of_adopted hlt (by simpa using hsize) (fun i hi hne => ?_) hnodup
    rw [hothers i hi, node?_setIfInBounds_ne (Ne.symm hne)]

/-! ## All three passes -/

theorem nodup_subtreesBelow {entries : List Entry}
    (h : entries.Pairwise fun a b => a.parent = b.parent → a.name ≠ b.name) (position : Nat) :
    ((subtreesBelow entries position).map Node.name).Nodup := by
  have hparent : ∀ {child} (hc : child ∈ childrenOf entries position)
      (hlt : child < entries.length), entries[child].parent = some position := by
    intro child hc hlt
    obtain ⟨-, entry, hentry, hsome⟩ := mem_childrenOf.1 hc
    obtain ⟨_, rfl⟩ := List.getElem?_eq_some_iff.1 hentry
    exact hsome
  rw [subtreesBelow, List.map_pmap, List.Nodup, List.pairwise_pmap]
  refine (pairwise_childrenOf entries position).imp_of_mem ?_
  intro i j hi hj hij hi' hj'
  rw [name_subtree, name_subtree]
  exact List.pairwise_iff_getElem.1 h i j hi'.2 hj'.2 hij
    (by rw [hparent hi hi'.2, hparent hj hj'.2])

theorem LinksOf.pairwise {entries : List Entry} {links : Links} (h : LinksOf entries links)
    {root : Entry} (hroot : entries[0]? = some root) (hnone : root.parent = none)
    (hnodup : ∀ position, ((subtreesBelow entries position).map Node.name).Nodup) :
    entries.Pairwise fun a b => a.parent = b.parent → a.name ≠ b.name := by
  rw [List.pairwise_iff_getElem]
  intro i j hi hj hij hparent hname
  obtain ⟨parent, -, hsome, hlt, -⟩ := h.linked j _ (List.getElem?_eq_getElem hj) (by omega)
  have hpos : 0 < i := by
    rcases Nat.eq_zero_or_pos i with rfl | hpos
    · rw [List.getElem?_eq_getElem hi] at hroot
      cases hroot
      rw [← hparent, hnone] at hsome
      cases hsome
    · exact hpos
  obtain ⟨parent', -, hsome', hlt', -⟩ := h.linked i _ (List.getElem?_eq_getElem hi) hpos
  cases hsome'.symm.trans (hparent.trans hsome)
  have hmem : ∀ k (hk : k < entries.length), parent < k → entries[k].parent = some parent →
      (k, subtree entries k hk) ∈ placedBelow entries parent := fun k hk hpk hpar =>
    List.mem_pmap.2 ⟨k, mem_childrenOf.2 ⟨hpk, _, List.getElem?_eq_getElem hk, hpar⟩, rfl⟩
  have hnodup' := hnodup parent
  rw [← map_name_placedBelow] at hnodup'
  have heq := List.inj_on_of_nodup_map hnodup' (hmem i hi hlt' hsome') (hmem j hj hlt hsome)
    (by simpa only [name_subtree] using hname)
  exact absurd (congrArg Prod.fst heq) (Nat.ne_of_lt hij)

/-- The third pass puts the whole tree together, or two names clash. -/
theorem assemble_yields {root : Entry} {rest : List Entry} {links : Links}
    (hlinks : LinksOf (root :: rest) links) (hdir : root.isDirectory) (hnone : root.parent = none) :
    Yields
      (fun tree => tree = subtree (root :: rest) 0 (Nat.succ_pos _) ∧
        ∀ position, ((subtreesBelow (root :: rest) position).map Node.name).Nodup)
      (Justified (root :: rest))
      (assemble links.children ((root :: rest).map fun entry => some (bare entry)).toArray) := by
  have hstart : Gathered (root :: rest) (root :: rest).length
      ((root :: rest).map fun entry => some (bare entry)).toArray := by
    refine ⟨by simp, fun i hi _ => ?_, fun i hi hle => absurd hi (by omega), fun i hle => ?_⟩
    · rw [Places.node?, List.getElem?_toArray, List.getElem?_map, List.getElem?_eq_getElem hi]
      rfl
    · simp [subtreesBelow_eq_nil (childrenOf_eq_nil (Nat.le_succ_of_le hle))]
  have hsize : ((root :: rest).map fun entry => some (bare entry)).toArray.size =
      (root :: rest).length := by simp
  unfold assemble
  rw [hsize]
  refine (Yields.foldrM_range (Gathered (root :: rest)) hstart fun k places hk h =>
    (gather_yields hlinks hk h).mono (fun _ h => h) fun fault hfault => ?_).bind
    fun places h => ?_
  · exact ⟨fun hacc => hfault.1 (nodup_subtreesBelow hacc.distinct k), hfault.2⟩
  · have hfirst := h.complete 0 (by simp) (Nat.le_refl 0)
      (fun parent hparent => by simp [hnone] at hparent)
    have htree : subtree (root :: rest) 0 (Nat.succ_pos _) = .directory root.name root.attributes
        (Node.byName (subtreesBelow (root :: rest) 0)) := by
      rw [subtree_eq]
      exact Entry.withChildren_of_isDirectory hdir _
    rw [hfirst, htree]
    exact ⟨rfl, fun position => h.distinct position (Nat.zero_le _)⟩

theorem isRoot_iff {entry : Entry} :
    isRoot entry ↔ entry.isDirectory ∧ entry.name = rootName ∧ entry.parent = none := by
  simp only [isRoot, Bool.and_eq_true, Option.isNone_iff_eq_none, beq_iff_eq]
  constructor
  · rintro ⟨⟨hdir, hnone⟩, hname⟩; exact ⟨hdir, hname, hnone⟩
  · rintro ⟨hdir, hname, hnone⟩; exact ⟨⟨hdir, hnone⟩, hname⟩

/-- Decoding gives the tree of an accepted list, or a fault of a list that is not accepted. -/
theorem decode_yields (entries : List Entry) :
    Yields (fun tree => Accepted entries ∧ ∃ h, tree = subtree entries 0 h) (Justified entries)
      (decode entries) := by
  cases entries with
  | nil => exact ⟨fun hacc => by simpa using hacc.root, rfl⟩
  | cons root rest =>
    unfold decode
    by_cases hroot : isRoot root
    · obtain ⟨hdir, hname, hnone⟩ := isRoot_iff.1 hroot
      simp only [hroot, Bool.not_true, Bool.false_eq_true, if_false]
      refine (links_ofEntries_yields rest hdir hnone).bind fun links hlinks => ?_
      refine (node_yields (by simp)).bind fun first hfirst => ?_
      refine (Yields.mapM fun entry => @namedNode_yields root entry rest).bind
        fun others hothers => ?_
      obtain ⟨rfl, hsized⟩ := hfirst
      obtain ⟨rfl, hchecked⟩ := hothers
      have hplaces : (bare root :: rest.map bare).map some =
          (root :: rest).map fun entry => some (bare entry) := by
        simp [Function.comp_def]
      rw [hplaces]
      refine (assemble_yields hlinks hdir hnone).mono ?_ fun _ hfault => hfault
      rintro tree ⟨rfl, hnodup⟩
      refine ⟨⟨⟨root, rfl, hdir, hname, hnone⟩, hlinks.linked, ?_, ?_, ?_, hlinks.shallow⟩, _, rfl⟩
      · intro position entry hentry hpos
        obtain ⟨index, rfl⟩ := Nat.exists_eq_add_of_lt hpos
        exact (hchecked entry (List.mem_of_getElem? (by simpa using hentry))).1
      · exact hlinks.pairwise (List.getElem?_cons_zero ..) hnone hnodup
      · intro entry hmem
        rcases List.mem_cons.1 hmem with rfl | hmem
        · exact hsized
        · exact (hchecked entry hmem).2
    · simp only [hroot, Bool.not_false, if_true]
      refine ⟨fun hacc => ?_, rfl⟩
      obtain ⟨root', hroot', hdir, hname, hnone⟩ := hacc.root
      cases hroot'
      exact hroot (isRoot_iff.2 ⟨hdir, hname, hnone⟩)

theorem decode_eq_ok_iff {entries : List Entry} {tree : Node} :
    decode entries = .ok tree ↔ Accepted entries ∧ ∃ h, tree = subtree entries 0 h := by
  have hyields := decode_yields entries
  cases hdecode : decode entries with
  | ok found =>
    rw [hdecode] at hyields
    obtain ⟨hacc, h, rfl⟩ := hyields
    constructor
    · rintro heq
      cases heq
      exact ⟨hacc, h, rfl⟩
    · rintro ⟨-, -, rfl⟩
      rfl
  | error fault =>
    rw [hdecode] at hyields
    constructor
    · intro heq
      cases heq
    · intro hacc
      exact absurd hacc.1 hyields.1

end PocketShell.Snapshot
