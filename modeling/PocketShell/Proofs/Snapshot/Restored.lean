import PocketShell.Proofs.Snapshot.Decode
import PocketShell.Snapshot.Text

/-!
# Restored trees are sound

Whatever text is accepted as a snapshot, its tree is sound: the root is a directory of its name, the
names are those of entries and differ within a directory, and no directory lies too deep. Its times
are times that were read.
-/

namespace PocketShell.Snapshot

open Time (Stamp)

variable {ok : Stamp → Prop}

/-! ## From accepted lists -/

theorem Accepted.depth_child {entries : List Entry} {position child : Nat}
    (hchild : child ∈ childrenOf entries position) :
    depth entries child = depth entries position + 1 := by
  obtain ⟨hlt, entry, hentry, hparent⟩ := mem_childrenOf.1 hchild
  exact depth_of_parent hentry hparent hlt

theorem Accepted.filed_subtreesBelow {entries : List Entry} (h : Accepted entries)
    (position : Nat) : Node.Filed (Node.byName (subtreesBelow entries position)) := by
  refine Node.filed_byName (fun node hnode => ?_) (nodup_subtreesBelow h.distinct position)
  obtain ⟨child, hchild, rfl⟩ := List.mem_pmap.1 hnode
  have hlt := lt_of_mem_childrenOf hchild
  rw [name_subtree]
  exact h.named child _ (List.getElem?_eq_getElem hlt.2) (by omega)

/-- The tree at a position fills the levels that its depth leaves. -/
theorem Accepted.sound_subtree {entries : List Entry} (h : Accepted entries)
    (htimed : ∀ entry ∈ entries, entry.attributes.Timed ok) {position : Nat}
    (hlt : position < entries.length) :
    Node.Sound ok (Path.maxDepth + 1 - depth entries position) (subtree entries position hlt) := by
  induction hn : entries.length - position using Nat.strongRecOn generalizing position with
  | ind n ih =>
    have htime := htimed _ (List.getElem_mem hlt)
    rw [subtree_eq]
    cases hbody : entries[position].body with
    | file content size =>
      simp only [Entry.withChildren, hbody]
      exact .file content htime
    | directory =>
      have hdir : entries[position].isDirectory := by simp [Entry.isDirectory, hbody]
      have hdepth := h.shallow position _ (List.getElem?_eq_getElem hlt) hdir
      have hlevels : Path.maxDepth + 1 - depth entries position =
          (Path.maxDepth - depth entries position) + 1 := by omega
      rw [Entry.withChildren_of_isDirectory hdir, hlevels]
      refine .directory htime (h.filed_subtreesBelow position) fun e he => ?_
      obtain ⟨node, hnode, rfl⟩ := List.mem_map.1 he
      obtain ⟨child, hchild, rfl⟩ := List.mem_pmap.1 hnode
      have hbelow := lt_of_mem_childrenOf hchild
      have hsound := ih (entries.length - child) (by omega) hbelow.2 rfl
      rwa [Accepted.depth_child hchild, Nat.add_sub_add_right] at hsound

/-- What decoding gives is the root of a sound tree. -/
theorem sound_of_decode {entries : List Entry} {tree : Node} (h : decode entries = .ok tree)
    (htimed : ∀ entry ∈ entries, entry.attributes.Timed ok) :
    tree.name = rootName ∧ tree.isDirectory ∧ tree.Sound ok (Path.maxDepth + 1) := by
  obtain ⟨hacc, hlt, rfl⟩ := decode_eq_ok_iff.1 h
  obtain ⟨root, hroot, hdir, hname, hnone⟩ := hacc.root
  have hfirst : entries[0] = root := by
    rw [List.getElem?_eq_getElem hlt] at hroot
    exact Option.some.inj hroot
  have hdepth : depth entries 0 = 0 := by
    rw [depth, hroot]
    simp [hnone]
  have hsound := hacc.sound_subtree htimed hlt
  rw [hdepth] at hsound
  refine ⟨?_, ?_, hsound⟩
  · rw [name_subtree, hfirst, hname]
  · rw [subtree_eq, Entry.isDirectory_withChildren, hfirst, hdir]

/-! ## From texts -/

theorem timed_of_ofJson? {value : Json.Value} {entry : Entry} (h : Entry.ofJson? value = some entry)
    (hread : ∀ text stamp, Time.Rfc3339.read? text = some stamp → ok stamp) :
    entry.attributes.Timed ok := by
  have hstamp : ∀ {fields : Fields} {name : String} {stamp : Stamp},
      fields.stamp? name = some stamp → ok stamp := by
    intro fields name stamp hsome
    obtain ⟨text, -, hsome⟩ := Option.bind_eq_some_iff.1 hsome
    exact hread text stamp hsome
  have hfields : ∀ {fields : Fields} {kind : String},
      fields.decode? kind = some entry → entry.attributes.Timed ok := by
    intro fields kind hsome
    simp only [Fields.decode?, bind, pure, Option.bind_eq_some_iff, Option.some.injEq] at hsome
    obtain ⟨-, -, -, -, created, hcreated, updated, hupdated, -, -, -, -, -, -, rfl⟩ := hsome
    exact ⟨hstamp hcreated, hstamp hupdated⟩
  unfold Entry.ofJson? at h
  split at h
  · simp only [bind, Option.bind_eq_some_iff] at h
    obtain ⟨kind, -, names, -, fields, -, hsome⟩ := h
    exact hfields hsome
  · simp only [bind, Option.bind_eq_some_iff] at h
    obtain ⟨names, -, hsome⟩ := h
    split at hsome
    · exact hfields hsome
    · cases hsome
  · cases h

theorem timed_of_read? {text : String} {entries : List Entry} (h : read? text = some entries)
    (hread : ∀ text stamp, Time.Rfc3339.read? text = some stamp → ok stamp) :
    ∀ entry ∈ entries, entry.attributes.Timed ok := by
  simp only [read?, bind, Option.bind_eq_some_iff] at h
  obtain ⟨value, -, h⟩ := h
  split at h
  · intro entry hentry
    obtain ⟨item, -, hitem⟩ := (mem_iff_of_mapM h).1 hentry
    exact timed_of_ofJson? hitem hread
  · cases h

/-- What a text denotes is the root of a sound tree. -/
theorem sound_of_toTree {text : String} {tree : Node} (h : toTree text = .ok tree)
    (hread : ∀ text stamp, Time.Rfc3339.read? text = some stamp → ok stamp) :
    tree.name = rootName ∧ tree.isDirectory ∧ tree.Sound ok (Path.maxDepth + 1) := by
  unfold toTree at h
  cases hentries : read? text with
  | none => rw [hentries] at h; cases h
  | some entries =>
    rw [hentries] at h
    exact sound_of_decode h (timed_of_read? hentries hread)

end PocketShell.Snapshot
