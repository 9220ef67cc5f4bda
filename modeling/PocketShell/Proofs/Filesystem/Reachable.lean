import PocketShell.Proofs.Filesystem.Invariant
import PocketShell.Proofs.Tree.Nodes

/-!
# What holds after every run

Two readings of the invariant, for every run of operations from a new filesystem, whatever the
operations are given and whether they succeed: the shape of the tree (`wellFormed_run`), and the
working directory, which never dangles (`anchored_run`).
-/

namespace PocketShell

open Time (Stamp)

/-! ## The tree -/

/-- The shape of every tree: a root `/`, directories that file their entries under their own names
and no name twice, names of entries everywhere below the root, and a limit to the depth. -/
structure Node.WellFormed (root : Node) : Prop where
  isDirectory : root.isDirectory
  name_eq : root.name = "/"
  key_eq : ∀ depth directory, root.LiesAt depth directory →
    ∀ e ∈ directory.entries, e.1 = e.2.name
  nodup : ∀ depth directory, root.LiesAt depth directory → (directory.children.map Node.name).Nodup
  named : ∀ depth node, root.LiesAt (depth + 1) node → Path.isName node.name
  directory_depth : ∀ depth directory, root.LiesAt depth directory → directory.isDirectory →
    depth ≤ Path.maxDepth
  depth_le : ∀ depth node, root.LiesAt depth node → depth ≤ Path.maxDepth + 1

theorem Filesystem.Sound.tidy {ok : Stamp → Prop} {fs : Filesystem} (h : fs.Sound ok) :
    fs.root.Tidy :=
  h.tree.tidy h.root_isDirectory

theorem Filesystem.Sound.wellFormed {ok : Stamp → Prop} {fs : Filesystem} (h : fs.Sound ok) :
    fs.root.WellFormed where
  isDirectory := h.root_isDirectory
  name_eq := h.root_name
  key_eq depth directory hlies := (h.tidy.filed depth directory hlies).key_eq
  nodup depth directory hlies := by
    simpa [Node.children, Function.comp_def] using (h.tidy.filed depth directory hlies).nodup_names
  named depth node hlies := by
    cases hlies with
    | @entry _ directory _ key hdirectory hmem =>
      have hfiled := h.tidy.filed depth directory hdirectory
      rw [← hfiled.key_eq _ hmem]
      exact hfiled.named (key, node) hmem
  directory_depth depth directory hlies hdir := by
    obtain ⟨levels, hlevels, hsound⟩ := h.tree.of_liesAt hlies
    obtain ⟨below, rfl, -⟩ := hsound.of_isDirectory hdir
    omega
  depth_le depth node hlies := by
    obtain ⟨below, hlevels, -⟩ := h.tree.of_liesAt hlies
    omega

/-! ## The working directory -/

namespace Filesystem

/-- The working path leads to a directory, through names of entries and not too deep, and whatever
relies on that finds the directory. -/
structure Anchored (fs : Filesystem) : Prop where
  exists_directory : ∃ directory, fs.root.directoryAt? fs.working = some directory ∧
    directory.isDirectory
  named : ∀ segment ∈ fs.working, Path.isName segment
  length_le : fs.working.length ≤ Path.maxDepth
  createDirectory_found : ∀ now name path,
    fs.createDirectory now name ≠ .error (.notFound path)
  createFile_found : ∀ now name text path,
    fs.createFile now name text ≠ .error (.notFound path)
  touch_found : ∀ now name path, fs.touch now name ≠ .error (.notFound path)
  list_found : ∃ entries, fs.list none = .ok entries
  workingDirectory_found : ∃ directory, fs.workingDirectory = .ok directory
  /-- The directory of a path that has been resolved is found when it is looked up again. -/
  directory_found : ∀ path segments, fs.segmentsOf path = .ok segments →
    ∃ directory, fs.root.directoryAt? segments = some directory ∧ fs.directory path = .ok directory

variable {ok : Stamp → Prop} {fs : Filesystem}

theorem directory_eq {path : String} {segments : List String} {directory : Node}
    (hsegments : fs.segmentsOf path = .ok segments)
    (hdirectory : fs.root.directoryAt? segments = some directory) :
    fs.directory path = .ok directory := by
  simp only [Filesystem.directory, hsegments, bind, Except.bind, hdirectory]
  rfl

theorem insert_found {directory : Node} (h : fs.root.directoryAt? fs.working = some directory)
    (node : Node) (path : String) : fs.insert node ≠ .error (.notFound path) := by
  rw [insert_eq h]
  cases directory.insert? node <;> simp

/-- The path of one dot leads to the working directory. -/
theorem segmentsOf_dot (fs : Filesystem) : fs.segmentsOf "." = .ok fs.working := by
  rw [segmentsOf_eq_ok, Node.resolve?]
  have hsegments : Path.segments "." = ["."] := by decide
  have habsolute : Path.isAbsolute "." = false := by decide
  rw [hsegments, habsolute]
  rfl

theorem Sound.directory_found (h : fs.Sound ok) {path : String} {segments : List String}
    (hsegments : fs.segmentsOf path = .ok segments) :
    ∃ directory, fs.root.directoryAt? segments = some directory ∧
      fs.directory path = .ok directory := by
  obtain ⟨directory, hdirectory⟩ :=
    Node.hasDirectory_of_resolve? h.working (segmentsOf_eq_ok.1 hsegments)
  exact ⟨directory, hdirectory, directory_eq hsegments hdirectory⟩

theorem Sound.anchored (h : fs.Sound ok) : fs.Anchored := by
  obtain ⟨directory, below, hdirectory, hdir, -, hlength⟩ := h.exists_directory
  refine ⟨⟨directory, hdirectory, hdir⟩, (h.tree.directoryAt? hdirectory).1, by omega, ?_, ?_, ?_,
    ?_, ⟨directory, workingDirectory_eq hdirectory⟩, fun _ _ => h.directory_found⟩
  · intro now name path
    rw [createDirectory_eq]
    split
    · split
      · simp
      · exact insert_found hdirectory _ path
    · simp
  · intro now name text path
    rw [createFile_eq hdirectory]
    split
    · split
      · simp
      · simp
      · exact insert_found hdirectory _ path
    · simp
  · intro now name path
    rw [touch_eq hdirectory]
    split
    · split
      · simp
      · exact insert_found hdirectory _ path
    · simp
  · obtain ⟨found, -, hfound⟩ := h.directory_found (segmentsOf_dot fs)
    refine ⟨found.children, ?_⟩
    rw [list, Option.getD_none, hfound]
    rfl

/-! ## Runs -/

/-- A tree has its shape after every run. -/
theorem wellFormed_run {user : String} (huser : Path.isName user) (clock : Nat → Stamp)
    (operations : List Operation) : ((startAt clock user).run operations).root.WellFormed :=
  (sound_run_startAt huser clock operations).wellFormed

/-- A run that makes, leaves and removes directories, and is refused a snapshot. -/
theorem wellFormed_run_guest :
    Path.isName "guest" ∧
      ((startAt (fun n => .ofNanoseconds n) "guest").run
        [.createDirectory (.ofNanoseconds 10) "a", .changeDirectory "a", .restore "[]",
          .createFile (.ofNanoseconds 11) "b" "text", .changeDirectory "..",
          .remove "a" true]).root.WellFormed :=
  ⟨by decide, wellFormed_run (by decide) _ _⟩

/-- The working directory is there after every run. -/
theorem anchored_run {user : String} (huser : Path.isName user) (clock : Nat → Stamp)
    (operations : List Operation) : ((startAt clock user).run operations).Anchored :=
  (sound_run_startAt huser clock operations).anchored

/-- A run that tries to remove its own working directory from inside and overwrites a file. -/
theorem anchored_run_guest :
    Path.isName "guest" ∧
      ((startAt (fun n => .ofNanoseconds n) "guest").run
        [.createDirectory (.ofNanoseconds 10) "a", .changeDirectory "a", .remove "a" true,
          .createFile (.ofNanoseconds 11) "b" "", .touch (.ofNanoseconds 12) "b",
          .reset fun n => .ofNanoseconds n]).Anchored :=
  ⟨by decide, anchored_run (by decide) _ _⟩

end Filesystem

end PocketShell
