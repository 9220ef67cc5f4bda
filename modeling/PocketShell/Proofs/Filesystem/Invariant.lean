import PocketShell.Proofs.Filesystem.Atomic
import PocketShell.Proofs.Yields
import PocketShell.Proofs.Snapshot.Restored
import PocketShell.Proofs.Tree.Walk

/-!
# The invariant of a filesystem

The tree is sound and the working directory is one of its directories. The two hold each other up:
the tree stays within its levels because a directory is only made where the working path is short
enough, and the working directory stays because entries are changed and removed only inside it, no
directory on the way to it ever turning into something else. Each operation keeps the invariant, and
so does every run of operations from a new filesystem.
-/

namespace PocketShell.Filesystem

open Time (Stamp)

variable {ok : Stamp → Prop} {fs : Filesystem}

/-- The root is a sound tree of directories, the working directory is one of them, and the home of
the user can be made again. -/
structure Sound (ok : Stamp → Prop) (fs : Filesystem) : Prop where
  user_isName : Path.isName fs.user
  root_name : fs.root.name = Snapshot.rootName
  root_isDirectory : fs.root.isDirectory
  tree : fs.root.Sound ok (Path.maxDepth + 1)
  working : fs.root.HasDirectory fs.working

/-- The working directory, and the levels that are left for its entries. -/
theorem Sound.exists_directory (h : fs.Sound ok) :
    ∃ directory below, fs.root.directoryAt? fs.working = some directory ∧
      directory.isDirectory ∧ directory.Sound ok (below + 1) ∧
      below + fs.working.length = Path.maxDepth := by
  obtain ⟨directory, hdirectory⟩ := h.working
  have hdir := Node.isDirectory_of_directoryAt? h.root_isDirectory hdirectory
  obtain ⟨-, levels, hlevels, hsound⟩ := h.tree.directoryAt? hdirectory
  obtain ⟨below, rfl, -⟩ := hsound.of_isDirectory hdir
  exact ⟨directory, below, hdirectory, hdir, hsound, by omega⟩

/-! ## New filesystems -/

theorem sound_home {clock : Nat → Stamp} (hclock : ∀ n, ok (clock n)) (user : String) :
    (home clock user).Sound ok 1 := by
  have hname : Path.isName welcomeName := by decide
  refine Node.sound_newDirectory (hclock 0) _ _ ?_ (by simp) ?_
  · simpa using hname
  · simpa using Node.sound_newFile (hclock 1) user welcomeName welcomeText

theorem sound_standardDirectory {clock : Nat → Stamp} {user : String} (hclock : ∀ n, ok (clock n))
    (huser : Path.isName user) (place : String × Nat) :
    (standardDirectory clock user place).Sound ok 2 := by
  refine Node.sound_newDirectory (hclock _) _ _ ?_ ?_ ?_
  · intro child hmem
    split at hmem
    · rw [List.mem_singleton.1 hmem]; exact huser
    · cases hmem
  · split <;> simp
  · intro child hmem
    split at hmem
    · rw [List.mem_singleton.1 hmem]; exact sound_home hclock user
    · cases hmem

theorem sound_initialTree {clock : Nat → Stamp} {user : String} (hclock : ∀ n, ok (clock n))
    (huser : Path.isName user) : (initialTree clock user).Sound ok 3 := by
  have hnames : ∀ name ∈ standardDirectories, Path.isName name := by decide
  have hmap : (standardDirectories.zipIdx.map (standardDirectory clock user)).map Node.name =
      standardDirectories := by
    rfl
  refine Node.sound_newDirectory (hclock 2) _ _ ?_ (by rw [hmap]; decide) ?_
  · intro child hchild
    refine hnames _ ?_
    rw [← hmap]
    exact List.mem_map_of_mem hchild
  · intro child hchild
    obtain ⟨place, -, rfl⟩ := List.mem_map.1 hchild
    exact sound_standardDirectory hclock huser place

theorem sound_startAt {clock : Nat → Stamp} {user : String} (hclock : ∀ n, ok (clock n))
    (huser : Path.isName user) : (startAt clock user).Sound ok where
  user_isName := huser
  root_name := rfl
  root_isDirectory := rfl
  tree := (sound_initialTree hclock huser).mono (by decide)
  working := Node.hasDirectory_nil _

/-! ## Changes in the working directory -/

/-- The working directory may be replaced by one of its name that is as sound. -/
theorem Sound.replace {directory : Node} {f : Node → Node} (h : fs.Sound ok)
    (hdirectory : fs.root.directoryAt? fs.working = some directory)
    (hname : (f directory).name = directory.name) (hdir : (f directory).isDirectory)
    (hf : ∀ below, below + fs.working.length = Path.maxDepth →
      directory.Sound ok (below + 1) → (f directory).Sound ok (below + 1)) :
    Sound ok { fs with root := fs.root.modifyAt f fs.working } where
  user_isName := h.user_isName
  root_name := by rw [← h.root_name]; exact Node.name_modifyAt hdirectory hname
  root_isDirectory := Node.isDirectory_modifyAt hdirectory h.root_isDirectory hdir
  tree := by
    refine h.tree.modifyAt hdirectory hname fun levels hlevels hsound => ?_
    obtain ⟨below, rfl, -⟩ :=
      hsound.of_isDirectory (Node.isDirectory_of_directoryAt? h.root_isDirectory hdirectory)
    exact hf below (by omega) hsound
  working := ⟨f directory, Node.directoryAt?_modifyAt hdirectory hdir⟩

theorem workingDirectory_eq {directory : Node}
    (h : fs.root.directoryAt? fs.working = some directory) :
    fs.workingDirectory = .ok directory := by
  rw [workingDirectory, h]
  rfl

theorem insert_eq {directory : Node} (h : fs.root.directoryAt? fs.working = some directory)
    (node : Node) :
    fs.insert node = match directory.insert? node with
      | some changed => .ok { fs with root := fs.root.modifyAt (fun _ => changed) fs.working }
      | none => .error (.alreadyExists node.name) := by
  rw [insert, Change.insert, Change.result_reading_bind, workingDirectory_eq h]
  cases hinsert : directory.insert? node <;> simp only [bind, Except.bind, hinsert] <;> rfl

theorem Sound.insert {node : Node} {changed : Filesystem} (h : fs.Sound ok)
    (hname : Path.isName node.name)
    (hnode : ∀ below, below + fs.working.length = Path.maxDepth → node.Sound ok below)
    (hchanged : fs.insert node = .ok changed) : changed.Sound ok := by
  obtain ⟨directory, -, hdirectory, hdir, -⟩ := h.exists_directory
  rw [insert_eq hdirectory] at hchanged
  cases hinsert : directory.insert? node with
  | none => rw [hinsert] at hchanged; cases hchanged
  | some replaced =>
    rw [hinsert] at hchanged
    cases hchanged
    obtain ⟨-, hreplaced⟩ := Node.insert?_eq_some hinsert
    refine h.replace hdirectory ?_ ?_ fun below hbelow hsound =>
      hsound.insert? (hnode below hbelow) hname hinsert
    · rw [hreplaced, Node.name_mapEntries]
    · rw [hreplaced, Node.isDirectory_mapEntries, hdir]

/-- One entry of the working directory may be changed if it keeps its name and stays sound. -/
theorem Sound.changeEntry {name : String} {f : Node → Node} (h : fs.Sound ok)
    (hname : ∀ node, (f node).name = node.name)
    (hf : ∀ node levels, node.Sound ok levels → (f node).Sound ok levels) :
    (fs.changeEntry name f).Sound ok := by
  obtain ⟨directory, -, hdirectory, hdir, -⟩ := h.exists_directory
  refine h.replace hdirectory (Node.name_mapEntries _ _) (by simpa using hdir)
    fun below _ hsound => hsound.mapEntries (·.modifyNamed fun node _ => hname node) ?_
  intro hall e he
  rcases Node.mem_modifyNamed he with he | ⟨node, hnode, rfl⟩
  · exact hall e he
  · exact hf node below (hall _ (Node.mem_of_lookup hnode))

/-! ## Every operation -/

theorem createDirectory_eq (fs : Filesystem) (now : Stamp) (name : String) :
    fs.createDirectory now name =
      if Path.isName name then
        if Path.maxDepth ≤ fs.working.length then .error (.tooDeep name)
        else fs.insert (.newDirectory now fs.user name [])
      else .error (.invalidName name) := by
  rw [createDirectory, Change.createDirectory, Change.result_reading_bind, checkName]
  split
  · rw [pure_bind, Change.result_get_bind]
    split <;> rfl
  · rfl

theorem createFile_eq {directory : Node} (h : fs.root.directoryAt? fs.working = some directory)
    (now : Stamp) (name text : String) :
    fs.createFile now name text =
      if Path.isName name then
        match directory.child? name with
        | some (.file ..) => .ok (fs.changeEntry name (Node.write now text))
        | some (.directory ..) => .error (.isADirectory name)
        | none => fs.insert (.newFile now fs.user name text)
      else .error (.invalidName name) := by
  rw [createFile, Change.createFile, Change.result_reading_bind, checkName]
  split
  · rw [pure_bind, Change.result_reading_bind, workingDirectory_eq h]
    split <;> rename_i hchild <;> simp only [bind, Except.bind, hchild] <;> rfl
  · rfl

theorem touch_eq {directory : Node} (h : fs.root.directoryAt? fs.working = some directory)
    (now : Stamp) (name : String) :
    fs.touch now name =
      if Path.isName name then
        match directory.child? name with
        | some _ => .ok (fs.changeEntry name (Node.touch now))
        | none => fs.insert (.newFile now fs.user name "")
      else .error (.invalidName name) := by
  rw [touch, Change.touch, Change.result_reading_bind, checkName]
  split
  · rw [pure_bind, Change.result_reading_bind, workingDirectory_eq h]
    split <;> rename_i hchild <;> simp only [bind, Except.bind, hchild] <;> rfl
  · rfl

theorem remove_eq {directory : Node} (h : fs.root.directoryAt? fs.working = some directory)
    (name : String) (recursive : Bool) :
    fs.remove name recursive =
      match directory.child? name with
      | none => .error (.notFound name)
      | some node =>
        if !recursive && !node.entries.isEmpty then .error (.notEmpty name)
        else .ok (fs.changeEntries (List.eraseP (·.1 == name))) := by
  rw [remove, Change.remove, Change.result_reading_bind, workingDirectory_eq h]
  cases hchild : directory.child? name with
  | none => simp only [bind, Except.bind, hchild]; rfl
  | some node =>
    simp only [bind, Except.bind, hchild]
    split <;> rfl

theorem segmentsOf_eq_ok {path : String} {segments : List String} :
    fs.segmentsOf path = .ok segments ↔ fs.root.resolve? fs.working path = some segments := by
  unfold segmentsOf
  cases fs.root.resolve? fs.working path <;> simp

theorem changeDirectory_eq_ok {path : String} {changed : Filesystem} :
    fs.changeDirectory path = .ok changed ↔
      ∃ segments, fs.root.resolve? fs.working path = some segments ∧
        changed = { fs with working := segments } := by
  rw [changeDirectory, Change.changeDirectory, Change.result_reading_bind, bind_eq_ok]
  simp only [segmentsOf_eq_ok, Change.result_modify, Except.ok.injEq, @eq_comm _ changed]

theorem run_restore (snapshot : String) (fs : Filesystem) :
    (Change.restore snapshot).run fs = match Snapshot.toTree snapshot with
      | .ok root => .ok () { fs with root, working := [] }
      | .error reason => .error (.malformedSnapshot reason) fs := by
  rw [Change.restore]
  cases Snapshot.toTree snapshot <;> rfl

theorem restore_eq_ok {snapshot : String} {changed : Filesystem} :
    fs.restore snapshot = .ok changed ↔
      ∃ root, Snapshot.toTree snapshot = .ok root ∧
        changed = { fs with root := root, working := [] } := by
  rw [restore, Change.result, run_restore]
  cases Snapshot.toTree snapshot with
  | error reason => simp
  | ok root => simp [eq_comm]

theorem Sound.createDirectory {now : Stamp} {name : String} {changed : Filesystem}
    (h : fs.Sound ok) (hnow : ok now) (hchanged : fs.createDirectory now name = .ok changed) :
    changed.Sound ok := by
  rw [createDirectory_eq] at hchanged
  split at hchanged
  · rename_i hname
    split at hchanged
    · cases hchanged
    · rename_i hshallow
      refine h.insert (by simpa using hname) (fun below hbelow => ?_) hchanged
      -- the working path is short enough to leave a level for the new directory
      obtain ⟨levels, rfl⟩ : ∃ levels, below = levels + 1 :=
        Nat.exists_eq_succ_of_ne_zero (by omega)
      exact Node.sound_newDirectory hnow _ _ (by simp) (by simp) (by simp)
  · cases hchanged

theorem Sound.createFile {now : Stamp} {name text : String} {changed : Filesystem}
    (h : fs.Sound ok) (hnow : ok now) (hchanged : fs.createFile now name text = .ok changed) :
    changed.Sound ok := by
  obtain ⟨directory, -, hdirectory, -⟩ := h.exists_directory
  rw [createFile_eq hdirectory] at hchanged
  split at hchanged
  · rename_i hname
    split at hchanged
    · cases hchanged
      exact h.changeEntry (Node.name_write now text) fun _ _ hnode => hnode.write hnow
    · cases hchanged
    · exact h.insert (by simpa using hname) (fun _ _ => Node.sound_newFile hnow _ _ _) hchanged
  · cases hchanged

theorem Sound.touch {now : Stamp} {name : String} {changed : Filesystem} (h : fs.Sound ok)
    (hnow : ok now) (hchanged : fs.touch now name = .ok changed) : changed.Sound ok := by
  obtain ⟨directory, -, hdirectory, -⟩ := h.exists_directory
  rw [touch_eq hdirectory] at hchanged
  split at hchanged
  · rename_i hname
    split at hchanged
    · cases hchanged
      exact h.changeEntry (Node.name_touch now) fun _ _ hnode => hnode.touch hnow
    · exact h.insert (by simpa using hname) (fun _ _ => Node.sound_newFile hnow _ _ _) hchanged
  · cases hchanged

theorem Sound.remove {name : String} {recursive : Bool} {changed : Filesystem} (h : fs.Sound ok)
    (hchanged : fs.remove name recursive = .ok changed) : changed.Sound ok := by
  obtain ⟨directory, -, hdirectory, hdir, -⟩ := h.exists_directory
  rw [remove_eq hdirectory] at hchanged
  split at hchanged
  · cases hchanged
  split at hchanged
  · cases hchanged
  cases hchanged
  refine h.replace hdirectory (Node.name_mapEntries _ _) (by simpa using hdir)
    fun below _ hsound => hsound.mapEntries (·.sublist List.eraseP_sublist) ?_
  intro hall e he
  exact hall e (List.mem_of_mem_eraseP he)

theorem Sound.changeDirectory {path : String} {changed : Filesystem} (h : fs.Sound ok)
    (hchanged : fs.changeDirectory path = .ok changed) : changed.Sound ok := by
  obtain ⟨segments, hsegments, rfl⟩ := changeDirectory_eq_ok.1 hchanged
  exact ⟨h.user_isName, h.root_name, h.root_isDirectory, h.tree,
    Node.hasDirectory_of_resolve? h.working hsegments⟩

theorem Sound.restore {snapshot : String} {changed : Filesystem} (h : fs.Sound ok)
    (hread : ∀ text stamp, Time.Rfc3339.read? text = some stamp → ok stamp)
    (hchanged : fs.restore snapshot = .ok changed) : changed.Sound ok := by
  obtain ⟨root, hroot, rfl⟩ := restore_eq_ok.1 hchanged
  obtain ⟨hname, hdir, hsound⟩ := Snapshot.sound_of_toTree hroot hread
  exact ⟨h.user_isName, hname, hdir, hsound, Node.hasDirectory_nil root⟩

/-! ## Runs -/

/-- Every operation keeps the invariant, whether it succeeds or not. -/
theorem Sound.after {operation : Operation} (h : fs.Sound ok) (hnow : operation.Reads ok)
    (hread : ∀ text stamp, Time.Rfc3339.read? text = some stamp → ok stamp) :
    (fs.after operation).Sound ok := by
  rw [after_eq]
  split
  · rename_i changed hchanged
    cases operation with
    | changeDirectory path => exact h.changeDirectory hchanged
    | createDirectory now name => exact h.createDirectory hnow hchanged
    | createFile now name text => exact h.createFile hnow hchanged
    | touch now name => exact h.touch hnow hchanged
    | remove name recursive => exact h.remove hchanged
    | restore snapshot => exact h.restore hread hchanged
    | reset clock =>
      cases hchanged
      exact sound_startAt hnow h.user_isName
  · exact h

theorem Sound.run {operations : List Operation} (h : fs.Sound ok)
    (hnow : ∀ operation ∈ operations, operation.Reads ok)
    (hread : ∀ text stamp, Time.Rfc3339.read? text = some stamp → ok stamp) :
    (fs.run operations).Sound ok := by
  induction operations generalizing fs with
  | nil => exact h
  | cons operation rest ih =>
    exact ih (h.after (hnow operation (by simp)) hread) fun other hother =>
      hnow other (List.mem_cons_of_mem _ hother)

/-- Where nothing is asked of times, every run keeps the invariant. -/
theorem Sound.run_untimed (h : fs.Sound fun _ => True) (operations : List Operation) :
    (fs.run operations).Sound fun _ => True := by
  refine h.run (fun operation _ => ?_) fun _ _ _ => trivial
  cases operation <;> simp [Operation.Reads]

/-- Every run from a new filesystem ends with the invariant, whatever its clock shows. -/
theorem sound_run_startAt {user : String} (huser : Path.isName user) (clock : Nat → Stamp)
    (operations : List Operation) : ((startAt clock user).run operations).Sound fun _ => True :=
  (sound_startAt (fun _ => trivial) huser).run_untimed operations

end PocketShell.Filesystem
