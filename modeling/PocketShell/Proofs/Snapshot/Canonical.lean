import PocketShell.Proofs.Filesystem.RoundTrip
import PocketShell.Proofs.Snapshot.Rearrangement

/-!
# One order for each tree

A list is in pre-order if each entry after the root hangs below the entry just before it or below
one that this entry lies under. Encoding gives a list in pre-order. Every accepted list has just one
rearrangement in pre-order, so that it is what encoding makes of the decoded tree, and a list in
pre-order comes back as it was.
-/

namespace PocketShell.Snapshot

/-- The entry at a position is the other one, or the other one lies below it. -/
inductive Above (entries : List Entry) (position : Nat) : Nat → Prop
  | self : Above entries position position
  | link {parent other : Nat} {entry : Entry} : Above entries position parent →
    entries[other]? = some entry → entry.parent = some parent → Above entries position other

/-- Each entry after the root hangs below the one before it, or below one above that. -/
def Preordered (entries : List Entry) : Prop :=
  ∀ position entry, entries[position + 1]? = some entry →
    ∃ parent, entry.parent = some parent ∧ Above entries parent position

section
variable {entries others : List Entry} {place : Nat → Nat}

theorem Above.le (h : Accepted entries) {position other : Nat}
    (habove : Above entries position other) : position ≤ other := by
  induction habove with
  | self => exact Nat.le_refl _
  | link _ hentry hparent ih => exact Nat.le_trans ih (Nat.le_of_lt (h.of_parent hentry hparent).1)

/-- What is above an entry and not the entry is above its parent. -/
theorem Above.parent {position other parent : Nat} {entry : Entry}
    (h : Above entries position other) (hne : position ≠ other)
    (hentry : entries[other]? = some entry) (hparent : entry.parent = some parent) :
    Above entries position parent := by
  cases h with
  | self => exact absurd rfl hne
  | link habove hfound hlink =>
    cases hentry.symm.trans hfound
    cases hparent.symm.trans hlink
    exact habove

theorem Above.trans {first second third : Nat} (h : Above entries first second)
    (h' : Above entries second third) : Above entries first third := by
  induction h' with
  | self => exact h
  | link _ hentry hparent ih => exact .link ih hentry hparent

/-- In pre-order, all that lies below an entry stands together behind it. -/
theorem Preordered.above_of_le (h : Preordered entries) {position between other : Nat}
    (habove : Above entries position other) (hother : other < entries.length)
    (hle : position ≤ between) (hbefore : between ≤ other) : Above entries position between := by
  induction other with
  | zero =>
    obtain rfl : between = 0 := Nat.le_zero.1 hbefore
    exact habove
  | succ last ih =>
    rcases Nat.eq_or_lt_of_le hbefore with rfl | hlt
    · exact habove
    · have hentry := List.getElem?_eq_getElem hother
      obtain ⟨parent, hparent, hlast⟩ := h last _ hentry
      have hparentAbove := habove.parent (by omega) hentry hparent
      exact ih (hparentAbove.trans hlast) (by omega) (by omega)

/-- In pre-order, an entry that hangs below something before another entry hangs no deeper than
that one. -/
theorem Preordered.link_le_parent (h : Preordered entries) (hacc : Accepted entries)
    {position later parent link : Nat} {entry other : Entry}
    (hentry : entries[position]? = some entry) (hparent : entry.parent = some parent)
    (hother : entries[later]? = some other) (hlink : other.parent = some link)
    (hbehind : position < later) (hbefore : link < position) : link ≤ parent := by
  have hlater : Above entries link later := .link .self hother hlink
  have hposition := h.above_of_le hlater (List.getElem?_eq_some_iff.1 hother).1
    (Nat.le_of_lt hbefore) (Nat.le_of_lt hbehind)
  exact (hposition.parent (Nat.ne_of_lt hbefore) hentry hparent).le hacc

/-- If all entries before a position keep their places, the others can only move behind it. -/
theorem Rearranges.lt_place (h : Rearranges place entries others) {position : Nat}
    (hfixed : ∀ before < position, place before = before) {other : Nat}
    (hother : other < entries.length) (hle : position ≤ other) (hne : place other ≠ position) :
    position < place other := by
  rcases Nat.lt_trichotomy (place other) position with hlt | heq | hgt
  · have hsame := h.injective _ (by omega) other hother (hfixed _ hlt)
    omega
  · exact absurd heq hne
  · exact hgt

/-- Between two lists in pre-order, no entry can change its place. -/
theorem Rearranges.place_eq (h : Rearranges place entries others) (hacc : Accepted entries)
    (hentries : Preordered entries) (hothers : Preordered others) {position : Nat}
    (hlt : position < entries.length) : place position = position := by
  induction position using Nat.strongRecOn with
  | ind position ih =>
    rcases Nat.eq_zero_or_pos position with rfl | hpos
    · exact h.root
    by_contra hne
    have hfixed : ∀ before < position, place before = before :=
      fun before hbefore => ih before hbefore (Nat.lt_trans hbefore hlt)
    have hmoved := h.lt_place hfixed hlt (Nat.le_refl _) hne
    -- Some later entry has taken the place.
    obtain ⟨later, hlater, hplace⟩ := h.exists_place (h.length_eq.symm ▸ hlt)
    have hbehind : position < later := by
      rcases Nat.lt_trichotomy later position with hbefore | rfl | hbehind
      · exact absurd ((hfixed later hbefore).symm.trans hplace) (Nat.ne_of_lt hbefore)
      · exact absurd hplace hne
      · exact hbehind
    have hentry := List.getElem?_eq_getElem hlt
    have hother := List.getElem?_eq_getElem hlater
    obtain ⟨parent, -, hparent, hparentLt, -⟩ := hacc.linked position _ hentry hpos
    obtain ⟨link, -, hlink, hlinkLt, -⟩ := hacc.linked later _ hother (by omega)
    have hplaceLt : place link < position := hplace ▸ h.parent_lt later _ link hother hlink
    have hbefore : link < position := by
      by_contra hnot
      have hgt := h.lt_place hfixed (Nat.lt_trans hlinkLt hlater) (by omega) (by omega)
      omega
    -- Each of the two stands first in one of the lists, so neither hangs deeper than the other.
    have hle : link ≤ parent :=
      hentries.link_le_parent hacc hentry hparent hother hlink hbehind hbefore
    have hge : parent ≤ link := by
      have hfirst := h.moved later _ hother
      rw [hplace] at hfirst
      refine hothers.link_le_parent (h.accepted hacc) hfirst ?_ (h.moved position _ hentry) ?_
        hmoved hparentLt
      · rw [Entry.renumbered, hlink, Option.map_some, hfixed link hbefore]
      · rw [Entry.renumbered, hparent, Option.map_some, hfixed parent hparentLt]
    have hsame : entries[position].parent = entries[later].parent := by
      rw [hparent, hlink, Nat.le_antisymm hge hle]
    have horder := h.siblings position later _ _ hentry hother hsame hbehind
    omega

/-- A list has just one rearrangement in pre-order. -/
theorem Rearranges.eq_of_preordered (h : Rearranges place entries others) (hacc : Accepted entries)
    (hentries : Preordered entries) (hothers : Preordered others) : others = entries := by
  refine List.ext_getElem h.length_eq fun position _ hlt => ?_
  have hentry := List.getElem?_eq_getElem hlt
  have hmoved := h.moved position _ hentry
  rw [h.place_eq hacc hentries hothers hlt] at hmoved
  rw [(List.getElem?_eq_some_iff.1 hmoved).2]
  cases hparent : entries[position].parent with
  | none => rw [Entry.renumbered, hparent, Option.map_none, ← hparent]
  | some parent =>
    have hparentLt := (hacc.of_parent hentry hparent).1
    rw [Entry.renumbered, hparent, Option.map_some,
      h.place_eq hacc hentries hothers (Nat.lt_trans hparentLt hlt), ← hparent]

end

/-! ## Encoding -/

section
variable {ok : Time.Stamp → Prop} {entries : List Entry} {root : Node}

/-- The head of a block is above all of it. -/
theorem Block.above {parent : Option Nat} {position : Nat} {node : Node}
    (h : Block entries parent position node) {place : Nat} (hle : position ≤ place)
    (hlt : place < position + node.count) : Above entries position place := by
  obtain ⟨-, -, -, habove⟩ := h.forall (motive := fun place _ => Above entries position place)
    .self (fun parent place directory hblock habove e he =>
      .link habove (hblock.of_placed he).getElem?_eq (parent_ofNode _ _)) hle hlt
  exact habove

theorem bounds_of_mem_placed {position : Nat} {below : List (String × Node)} {e : Nat × Node}
    (he : e ∈ placed position below) :
    position ≤ e.1 ∧ e.1 + e.2.count ≤ position + Node.countAll below := by
  induction below generalizing position with
  | nil => cases he
  | cons first rest ih =>
    rw [Node.countAll]
    rcases List.mem_cons.1 he with rfl | he
    · dsimp only
      omega
    · have hbounds := ih he
      omega

theorem count_pos (node : Node) : 0 < node.count := by
  rw [count_eq]
  exact Nat.succ_pos _

/-- The entry at a position stands in the block of its parent. -/
def StandsBelow (entries : List Entry) (position : Nat) : Prop :=
  ∃ entry link parent directory, entries[position]? = some entry ∧ entry.parent = some link ∧
    Block entries parent link directory ∧ link < position ∧ position < link + directory.count

theorem Block.standsBelow_placed {parent : Option Nat} {position : Nat} {node : Node}
    (h : Block entries parent position node) {e : Nat × Node}
    (he : e ∈ placed (position + 1) node.entries) : StandsBelow entries e.1 := by
  have hbounds := bounds_of_mem_placed he
  have hcount := count_eq node
  have hpos := count_pos e.2
  exact ⟨_, position, parent, node, (h.of_placed he).getElem?_eq, parent_ofNode _ _, h, by omega,
    by omega⟩

/-- Every entry of a tree but the first stands in the block of its parent. -/
theorem standsBelow_encode (root : Node) {position : Nat} (hlt : position < root.count)
    (hpos : 0 < position) : StandsBelow (encode root) position := by
  obtain ⟨-, -, -, hstands⟩ := (block_encode root).forall
    (motive := fun place _ => 0 < place → StandsBelow (encode root) place)
    (fun h => absurd h (Nat.lt_irrefl 0))
    (fun _ _ _ hblock _ _ he _ => hblock.standsBelow_placed he) (Nat.zero_le position)
    (by rwa [Nat.zero_add])
  exact hstands hpos

/-- Encoding gives a list in pre-order. -/
theorem preordered_encode (root : Node) : Preordered (encode root) := by
  intro position entry hentry
  have hlt : position + 1 < root.count := by
    rw [← length_encode]
    exact (List.getElem?_eq_some_iff.1 hentry).1
  obtain ⟨found, link, parent, directory, hfound, hlink, hblock, hbefore, hwithin⟩ :=
    standsBelow_encode root hlt (Nat.succ_pos _)
  cases hentry.symm.trans hfound
  exact ⟨link, hlink, hblock.above (by omega) (by omega)⟩

/-- Encoding a decoded tree rearranges the list that it was decoded from. -/
theorem exists_rearranges_encode {entries : List Entry} {tree : Node}
    (h : decode entries = .ok tree) : ∃ place, Rearranges place entries (encode tree) := by
  have htimed : ∀ entry ∈ entries, entry.attributes.Timed fun _ => True :=
    fun _ _ => ⟨trivial, trivial⟩
  have hsound := sound_of_decode h htimed
  obtain ⟨hacc, hlt, rfl⟩ := decode_eq_ok_iff.1 h
  obtain ⟨hencoded, hlt', htree⟩ :=
    decode_eq_ok_iff.1 (decode_encode hsound.1 hsound.2.1 hsound.2.2)
  exact ⟨_, hacc.rearranges_counterpart hencoded htree.symm⟩

/-! ## Decoding and encoding -/

/-- What a list of entries comes to does not depend on the order of the list. All its rearrangements
are decoded to the same tree. Encoding the tree gives the rearrangement in pre-order, which is the
list itself if that was in pre-order already; and if the list was read from a text, then the
rearrangement has a text too, from which it is read back as far as a machine of 64 bits can hold
it. -/
theorem decode_rearranged {entries : List Entry} {tree : Node} (h : decode entries = .ok tree) :
    (∀ place others, Rearranges place entries others → decode others = .ok tree) ∧
      (∃ place, Rearranges place entries (encode tree)) ∧ Preordered (encode tree) ∧
      (Preordered entries → encode tree = entries) ∧
      ∀ text, read? text = some entries → ∃ written, ofTree? tree = some written ∧
        (written.utf8ByteSize < addressable → read? written = some (encode tree)) := by
  obtain ⟨place, hplace⟩ := exists_rearranges_encode h
  have hacc := (decode_eq_ok_iff.1 h).1
  refine ⟨fun _ _ hothers => hothers.decode_eq h, ⟨place, hplace⟩, preordered_encode tree,
    fun hentries => hplace.eq_of_preordered hacc hentries (preordered_encode tree), ?_⟩
  intro text hread
  have htimed := timed_of_read? hread fun _ _ => Time.Rfc3339.isWritable_of_read?
  obtain ⟨written, hwritten⟩ := exists_ofTree? (sound_of_decode h htimed).2.2
  exact ⟨written, hwritten, (hplace.accepted hacc).read?_write? hwritten⟩

end

/-! ### A tree in two orders -/

/-- What every node of the tree below shows. -/
def plainAttributes : Attributes :=
  ⟨.ofNanoseconds 0, .ofNanoseconds 1, directoryPermissions, "guest"⟩

/-- A directory and a file in the root, and a file in the directory, level by level. -/
def byLevels : List Entry :=
  [⟨none, "/", plainAttributes, .directory⟩, ⟨some 0, "a", plainAttributes, .directory⟩,
    ⟨some 0, "b", plainAttributes, .file "" 0⟩, ⟨some 1, "c", plainAttributes, .file "text" 4⟩]

/-- The same entries in pre-order. -/
def byDepth : List Entry :=
  [⟨none, "/", plainAttributes, .directory⟩, ⟨some 0, "a", plainAttributes, .directory⟩,
    ⟨some 1, "c", plainAttributes, .file "text" 4⟩, ⟨some 0, "b", plainAttributes, .file "" 0⟩]

/-- The tree of both. -/
def smallTree : Node :=
  .directory "/" plainAttributes
    [("a", .directory "a" plainAttributes [("c", .file "c" plainAttributes "text")]),
      ("b", .file "b" plainAttributes "")]

theorem rearranges_byDepth : Rearranges ([0, 1, 3, 2].getD · 0) byLevels byDepth where
  length_eq := rfl
  injective := by decide
  moved position entry hentry := by
    match position with
    | 0 | 1 | 2 | 3 => cases hentry; rfl
    | _ + 4 => cases hentry
  root := rfl
  parent_lt position entry parent hentry hparent := by
    match position with
    | 0 | 1 | 2 | 3 => cases hentry; cases hparent <;> decide
    | _ + 4 => cases hentry
  siblings i j a b ha hb hparents hij := by
    have hall : ∀ i < 4, ∀ j < 4, byLevels[i]?.map (·.parent) = byLevels[j]?.map (·.parent) →
        i < j → [0, 1, 3, 2].getD i 0 < [0, 1, 3, 2].getD j 0 := by decide
    refine hall i (List.getElem?_eq_some_iff.1 ha).1 j (List.getElem?_eq_some_iff.1 hb).1 ?_ hij
    rw [ha, hb, Option.map_some, Option.map_some, hparents]

/-- Both orders are decoded to the tree, and its encoding is the second of them. -/
theorem decode_byLevels : decode byLevels = .ok smallTree ∧ decode byDepth = .ok smallTree ∧
    Preordered (encode smallTree) ∧ encode smallTree = byDepth := by
  have hdecode : decode byLevels = .ok smallTree := rfl
  have h := decode_rearranged hdecode
  refine ⟨hdecode, h.1 _ _ rearranges_byDepth, h.2.2.1, ?_⟩
  rw [encode_eq]
  rfl

end PocketShell.Snapshot
