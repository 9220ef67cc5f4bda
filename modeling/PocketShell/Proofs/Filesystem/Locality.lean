import PocketShell.Proofs.Filesystem.Invariant
import PocketShell.Proofs.Tree.Locality

/-!
# Operations change one entry of the working directory

The operations that make, change and remove entries do so in the working directory, and there under
one name. All else of the tree stays: every node that is not reached through that entry shows the
same as before, and every other directory has entries of the same names.
-/

namespace PocketShell.Filesystem

open Time (Stamp)

variable {fs changed : Filesystem} {operation : Operation} {name : String}

namespace Operation

/-- The name of the entry that an operation makes, changes or removes, if it is about an entry. -/
def entry? : Operation → Option String
  | createDirectory _ name | createFile _ name _ | touch _ name | remove name _ => some name
  | changeDirectory _ | restore _ | reset _ => none

/-- The names with one more at their end, unless it is among them. -/
def withName (name : String) (names : List String) : List String :=
  if name ∈ names then names else names ++ [name]

/-- The names in the working directory after an operation on one of its entries, given those
before. -/
def namesAfter (names : List String) : Operation → List String
  | createDirectory _ name | createFile _ name _ | touch _ name => withName name names
  | remove name _ => names.erase name
  | changeDirectory _ | restore _ | reset _ => names

end Operation

/-- The entries of the working directory, changed by `edit` at the name that an operation is
about. -/
structure Edits (operation : Operation) (name : String) (directory : Node)
    (edit : List (String × Node) → List (String × Node)) : Prop where
  here : Node.ChangedAt name directory.entries (edit directory.entries)
  names : (edit directory.entries).map (·.1) = operation.namesAfter directory.names

/-! ## What operations do to the entries -/

theorem workingDirectory_eq_ok {directory : Node} :
    fs.workingDirectory = .ok directory ↔ fs.root.directoryAt? fs.working = some directory := by
  rw [workingDirectory]
  cases fs.root.directoryAt? fs.working <;> simp

/-- Whoever looks at the working directory first fails where there is none. -/
theorem exists_working_of_reading {next : Node → Change}
    (h : (PocketShell.Change.reading workingDirectory >>= next).result fs = .ok changed) :
    ∃ directory, fs.root.directoryAt? fs.working = some directory := by
  rw [Change.result_reading_bind] at h
  obtain ⟨directory, hdirectory, -⟩ := bind_eq_ok.1 h
  exact ⟨directory, workingDirectory_eq_ok.1 hdirectory⟩

theorem exists_working (hname : operation.entry? = some name)
    (h : operation.apply fs = .ok changed) :
    ∃ directory, fs.root.directoryAt? fs.working = some directory := by
  cases operation with
  | createDirectory now made =>
    rw [Operation.apply, createDirectory_eq] at h
    split at h
    · split at h
      · cases h
      · exact exists_working_of_reading h
    · cases h
  | createFile now made text =>
    rw [Operation.apply, createFile, Change.createFile, Change.result_reading_bind] at h
    obtain ⟨-, -, h⟩ := bind_eq_ok.1 h
    exact exists_working_of_reading h
  | touch now touched =>
    rw [Operation.apply, touch, Change.touch, Change.result_reading_bind] at h
    obtain ⟨-, -, h⟩ := bind_eq_ok.1 h
    exact exists_working_of_reading h
  | remove removed recursive => exact exists_working_of_reading h
  | changeDirectory | restore | reset => cases hname

section
variable {directory : Node}

theorem exists_edit_insert {node : Node}
    (hdirectory : fs.root.directoryAt? fs.working = some directory)
    (hnames : ∀ names, operation.namesAfter names = Operation.withName node.name names)
    (h : fs.insert node = .ok changed) :
    ∃ edit, Edits operation node.name directory edit ∧ changed = fs.changeEntries edit := by
  rw [insert_eq hdirectory] at h
  cases hinsert : directory.insert? node with
  | none => rw [hinsert] at h; cases h
  | some replaced =>
    rw [hinsert] at h
    cases h
    obtain ⟨habsent, rfl⟩ := Node.insert?_eq_some hinsert
    have hnew : node.name ∉ directory.names := by
      rw [Node.names, ← Node.lookup_isSome_iff_mem_keys, ← Node.child?, habsent]
      exact Bool.false_ne_true
    refine ⟨(· ++ [(node.name, node)]), ⟨.added node hnew, ?_⟩, ?_⟩
    · rw [hnames, Operation.withName, if_neg hnew, List.map_append]
      rfl
    · exact congrArg (Filesystem.mk · fs.working fs.user)
        (Node.modifyAt_congr (Node.nodeAt?_of_directoryAt? hdirectory) rfl)

theorem Edits.altered {node : Node} (f : Node → Node) (hchild : directory.child? name = some node)
    (hnames : ∀ names, operation.namesAfter names = Operation.withName name names) :
    Edits operation name directory (Node.modifyNamed name f) := by
  have hmem : name ∈ directory.names :=
    Node.lookup_isSome_iff_mem_keys.1 (Option.isSome_of_eq_some hchild)
  refine ⟨.altered f hmem, ?_⟩
  rw [hnames, Operation.withName, if_pos hmem, Node.keys_modifyNamed]
  rfl

theorem Edits.removed {node : Node} (hchild : directory.child? name = some node)
    (hnames : ∀ names, operation.namesAfter names = names.erase name) :
    Edits operation name directory (List.eraseP (·.1 == name)) := by
  refine ⟨.removed (Node.lookup_isSome_iff_mem_keys.1 (Option.isSome_of_eq_some hchild)), ?_⟩
  rw [hnames, Node.names, List.erase_eq_eraseP', List.eraseP_map]
  rfl

/-- An operation about an entry that succeeds has changed the entries of the working directory at
that name, and nothing else. -/
theorem exists_edit (hdirectory : fs.root.directoryAt? fs.working = some directory)
    (hname : operation.entry? = some name) (h : operation.apply fs = .ok changed) :
    ∃ edit, Edits operation name directory edit ∧ changed = fs.changeEntries edit := by
  cases operation with
  | createDirectory now made =>
    cases hname
    rw [Operation.apply, createDirectory_eq] at h
    split at h
    · split at h
      · cases h
      · exact exists_edit_insert hdirectory (fun _ => rfl) h
    · cases h
  | createFile now made text =>
    cases hname
    rw [Operation.apply, createFile_eq hdirectory] at h
    split at h
    · split at h
      · rename_i hchild
        cases h
        exact ⟨_, .altered _ hchild fun _ => rfl, rfl⟩
      · cases h
      · exact exists_edit_insert hdirectory (fun _ => rfl) h
    · cases h
  | touch now touched =>
    cases hname
    rw [Operation.apply, touch_eq hdirectory] at h
    split at h
    · split at h
      · rename_i hchild
        cases h
        exact ⟨_, .altered _ hchild fun _ => rfl, rfl⟩
      · exact exists_edit_insert hdirectory (fun _ => rfl) h
    · cases h
  | remove removed recursive =>
    cases hname
    rw [Operation.apply, remove_eq hdirectory] at h
    split at h
    · cases h
    · rename_i hchild
      split at h
      · cases h
      · cases h
        exact ⟨_, .removed hchild fun _ => rfl, rfl⟩
  | changeDirectory | restore | reset => cases hname

end

/-! ## What every operation keeps -/

/-- No operation changes whose tree it is. -/
theorem user_after (fs : Filesystem) (operation : Operation) :
    (fs.after operation).user = fs.user := by
  rw [after_eq]
  cases hchanged : operation.apply fs with
  | error fault => rfl
  | ok changed =>
    cases operation with
    | createDirectory | createFile | touch | remove =>
      obtain ⟨directory, hdirectory⟩ := exists_working rfl hchanged
      obtain ⟨edit, -, rfl⟩ := exists_edit hdirectory rfl hchanged
      rfl
    | changeDirectory path =>
      obtain ⟨segments, -, rfl⟩ := changeDirectory_eq_ok.1 hchanged
      rfl
    | restore snapshot =>
      obtain ⟨root, -, rfl⟩ := restore_eq_ok.1 hchanged
      rfl
    | reset clock =>
      cases hchanged
      rfl

/-- An operation about an entry goes nowhere. -/
theorem working_after (hname : operation.entry? = some name) :
    (fs.after operation).working = fs.working := by
  rw [after_eq]
  cases hchanged : operation.apply fs with
  | error fault => rfl
  | ok changed =>
    obtain ⟨directory, hdirectory⟩ := exists_working hname hchanged
    obtain ⟨edit, -, rfl⟩ := exists_edit hdirectory hname hchanged
    rfl

/-- Whoever goes elsewhere leaves the tree as it is. -/
theorem root_after_changeDirectory (fs : Filesystem) (path : String) :
    (fs.after (.changeDirectory path)).root = fs.root := by
  rw [after_eq]
  cases hchanged : (Operation.changeDirectory path).apply fs with
  | error fault => rfl
  | ok changed =>
    obtain ⟨segments, -, rfl⟩ := changeDirectory_eq_ok.1 hchanged
    rfl

theorem root_isDirectory_after (h : fs.root.isDirectory) (operation : Operation) :
    (fs.after operation).root.isDirectory := by
  rw [after_eq]
  cases hchanged : operation.apply fs with
  | error fault => exact h
  | ok changed =>
    cases operation with
    | createDirectory | createFile | touch | remove =>
      obtain ⟨directory, hdirectory⟩ := exists_working rfl hchanged
      obtain ⟨edit, -, rfl⟩ := exists_edit hdirectory rfl hchanged
      refine Node.isDirectory_modifyAt hdirectory h ?_
      rw [Node.isDirectory_mapEntries]
      exact Node.isDirectory_of_directoryAt? h hdirectory
    | changeDirectory path =>
      obtain ⟨segments, -, rfl⟩ := changeDirectory_eq_ok.1 hchanged
      exact h
    | restore snapshot =>
      obtain ⟨root, hroot, rfl⟩ := restore_eq_ok.1 hchanged
      exact (Snapshot.sound_of_toTree hroot fun _ _ _ => trivial).2.1
    | reset clock =>
      cases hchanged
      rfl

theorem user_run (fs : Filesystem) (operations : List Operation) :
    (fs.run operations).user = fs.user := by
  induction operations generalizing fs with
  | nil => rfl
  | cons operation rest ih => exact (ih (fs.after operation)).trans (user_after fs operation)

theorem working_run {operations : List Operation}
    (h : ∀ operation ∈ operations, operation.entry?.isSome) :
    (fs.run operations).working = fs.working := by
  induction operations generalizing fs with
  | nil => rfl
  | cons operation rest ih =>
    obtain ⟨name, hname⟩ := Option.isSome_iff_exists.1 (h operation List.mem_cons_self)
    exact (ih fun later hlater => h later (List.mem_cons_of_mem _ hlater)).trans
      (working_after hname)

theorem root_isDirectory_run (h : fs.root.isDirectory) (operations : List Operation) :
    (fs.run operations).root.isDirectory := by
  induction operations generalizing fs with
  | nil => exact h
  | cons operation rest ih => exact ih (root_isDirectory_after h operation)

/-! ## What operations leave alone -/

/-- Only the entry of the given name in the working directory, and what lies below it, has been
changed. -/
structure Confined (operation : Operation) (name : String) (fs changed : Filesystem) : Prop where
  working : changed.working = fs.working
  user : changed.user = fs.user
  /-- Every node that is not reached through the entry is there or not as before, and shows the
  same. -/
  nodes : ∀ path, ¬fs.working ++ [name] <+: path →
    (changed.root.nodeAt? path).map Node.bare = (fs.root.nodeAt? path).map Node.bare
  /-- Every other directory has entries of the same names, in the same order. -/
  names : ∀ path, ¬fs.working ++ [name] <+: path → path ≠ fs.working →
    (changed.root.nodeAt? path).map Node.names = (fs.root.nodeAt? path).map Node.names
  /-- In the working directory the name of the entry may come last or go. -/
  here : ∃ before after, fs.root.nodeAt? fs.working = some before ∧
    changed.root.nodeAt? fs.working = some after ∧
      after.names = operation.namesAfter before.names

theorem Edits.confined {directory : Node} {edit : List (String × Node) → List (String × Node)}
    (h : Edits operation name directory edit) (hdir : directory.isDirectory)
    (hdirectory : fs.root.directoryAt? fs.working = some directory) :
    Confined operation name fs (fs.changeEntries edit) := by
  have hfound := Node.nodeAt?_of_directoryAt? hdirectory
  have hentries := Node.entries_mapEntries hdir edit
  have hothers : ∀ segment ≠ name,
      (directory.mapEntries edit).child? segment = directory.child? segment := by
    intro segment hsegment
    rw [Node.child?, hentries]
    exact h.here.lookup_of_ne hsegment
  refine ⟨rfl, rfl, fun path hpath => ?_, fun path hpath hne => ?_, directory,
    directory.mapEntries edit, hfound, Node.nodeAt?_modifyAt hfound _, ?_⟩
  · exact Node.map_nodeAt?_modifyAt (fun _ _ _ => Node.bare_mapEntries _ _) hfound hothers
      (fun _ => Node.bare_mapEntries _ _) hpath
  · exact Node.map_nodeAt?_modifyAt Node.names_modifyNamed hfound hothers
      (fun heq => absurd heq hne) hpath
  · rw [Node.names, hentries, h.names]

/-- In every filesystem that operations can lead to, one that makes, changes or removes an entry of
the working directory leaves all else alone. -/
theorem confined_run {clock : Nat → Stamp} {user : String} {operations : List Operation}
    (hname : operation.entry? = some name)
    (h : operation.apply ((startAt clock user).run operations) = .ok changed) :
    Confined operation name ((startAt clock user).run operations) changed := by
  obtain ⟨directory, hdirectory⟩ := exists_working hname h
  obtain ⟨edit, hedits, rfl⟩ := exists_edit hdirectory hname h
  have hroot : ((startAt clock user).run operations).root.isDirectory :=
    root_isDirectory_run rfl operations
  exact hedits.confined (Node.isDirectory_of_directoryAt? hroot hdirectory) hdirectory

/-- A file is removed from the home, which was entered before. -/
theorem confined_run_guest : ∃ changed,
    (Operation.remove welcomeName false).apply
        ((startAt (fun n => .ofNanoseconds n) "guest").run [.changeDirectory "home/guest"]) =
      .ok changed ∧
    Confined (.remove welcomeName false) welcomeName
      ((startAt (fun n => .ofNanoseconds n) "guest").run [.changeDirectory "home/guest"]) changed :=
  ⟨_, rfl, confined_run rfl rfl⟩

end PocketShell.Filesystem
