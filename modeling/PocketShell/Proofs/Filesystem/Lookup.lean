import PocketShell.Proofs.Filesystem.Outcome
import PocketShell.Proofs.Filesystem.Paths

/-!
# Which file a path names

A path names a file if the way along all of its segments but the last leads to a directory that has
the file under the last segment (`Locates`). The file is found by cutting the text of the path at
its last segment, wherever slashes stand, and that comes to the same (`looksUp_run`). So slashes at
the end of a path are no matter, and no path names a file and a directory.
-/

namespace PocketShell.Filesystem

variable {fs : Filesystem} {path : String} {file : Node} {ok : Time.Stamp → Prop}

/-- The way along a path, up to its last segment, leads to a directory that has the file under the
last segment. -/
def Locates (fs : Filesystem) (path : String) (file : Node) : Prop :=
  ∃ before name there directory, Path.segments path = before ++ [name] ∧
    before.foldlM fs.root.step? (if Path.isAbsolute path then [] else fs.working) = some there ∧
    fs.root.directoryAt? there = some directory ∧ directory.child? name = some file ∧
    ¬file.isDirectory

/-- What looking for the file of a path comes to. -/
structure LooksUp (fs : Filesystem) (path : String) : Prop where
  found_iff : ∀ file, fs.file path = .ok file ↔ Locates fs path file
  /-- There is one reason to fail, which names the path as it is given. -/
  lost_iff : ∀ fault, fs.file path = .error fault ↔
    fault = .notFound path ∧ ∀ file, ¬Locates fs path file
  noSegments : Path.segments path = [] → fs.file path = .error (.notFound path)
  /-- The way breaks off before the last segment, where no directory bears the name. -/
  hop : ∀ before name, Path.segments path = before ++ [name] →
    before.foldlM fs.root.step? (if Path.isAbsolute path then [] else fs.working) = none →
      fs.file path = .error (.notFound path)
  /-- A step is no name of a file. -/
  step : ∀ before name, Path.segments path = before ++ [name] → name = "." ∨ name = ".." →
    fs.file path = .error (.notFound path)
  /-- The last segment is the name of a directory. -/
  directory : ∀ before name there directory child, Path.segments path = before ++ [name] →
    before.foldlM fs.root.step? (if Path.isAbsolute path then [] else fs.working) = some there →
      fs.root.directoryAt? there = some directory → directory.child? name = some child →
        child.isDirectory → fs.file path = .error (.notFound path)
  /-- Slashes at the end are no matter. -/
  slashes : ∀ slashes : String, (∀ c ∈ slashes.toList, c = Path.separator) →
    ∀ file, fs.file (path ++ slashes) = .ok file ↔ fs.file path = .ok file
  /-- No path names a file and a directory. -/
  apart : ∀ file directory, fs.file path = .ok file → fs.directory path ≠ .ok directory

/-! ## The file at the last segment -/

/-- A path has one last segment, under which its file is looked for. -/
theorem locates_iff {before : List String} {name : String}
    (hsegments : Path.segments path = before ++ [name]) :
    Locates fs path file ↔ ∃ there directory,
      before.foldlM fs.root.step? (if Path.isAbsolute path then [] else fs.working) = some there ∧
        fs.root.directoryAt? there = some directory ∧ directory.child? name = some file ∧
        ¬file.isDirectory := by
  constructor
  · rintro ⟨others, last, there, directory, hothers, hfound⟩
    obtain ⟨rfl, hlast⟩ := List.append_inj' (hsegments.symm.trans hothers) rfl
    obtain rfl := List.singleton_inj.1 hlast
    exact ⟨there, directory, hfound⟩
  · rintro ⟨there, directory, hfound⟩
    exact ⟨before, name, there, directory, hsegments, hfound⟩

/-- The file under the last segment of a path in the directory that the rest leads to. -/
def file? (fs : Filesystem) (path : String) : Option Node := do
  let (parent, name) ← Path.splitLast? path
  let directory ← (fs.directory parent).toOption
  directory.childFile? name

theorem file_eq (fs : Filesystem) (path : String) : fs.file path = match fs.file? path with
    | some file => .ok file
    | none => .error (.notFound path) := by
  rw [Filesystem.file, file?]
  cases Path.splitLast? path with
  | none => rfl
  | some parts =>
    obtain ⟨parent, name⟩ := parts
    cases hdirectory : fs.directory parent with
    | error fault => simp [hdirectory, Except.toOption]
    | ok directory =>
      cases hfile : directory.childFile? name <;> simp [hdirectory, hfile, Except.toOption]

theorem file?_eq_some : fs.file? path = some file ↔ ∃ parent name directory,
    Path.splitLast? path = some (parent, name) ∧ fs.directory parent = .ok directory ∧
      directory.childFile? name = some file := by
  have htoOption : ∀ (result : Except Fault Node) (directory : Node),
      result.toOption = some directory ↔ result = .ok directory := fun result directory => by
    cases result <;> simp [Except.toOption]
  simp [file?, Option.bind_eq_some_iff, htoOption]

/-- The text of a path is cut where its last segment begins. -/
theorem file?_eq_some_iff_locates : fs.file? path = some file ↔ Locates fs path file := by
  rw [file?_eq_some]
  constructor
  · rintro ⟨parent, name, directory, hsplit, hdirectory, hfile⟩
    obtain ⟨hsegments, habsolute⟩ := Path.of_splitLast?_eq_some hsplit
    obtain ⟨there, hthere, hfound⟩ := directory_eq_ok.1 hdirectory
    obtain ⟨hchild, hfile⟩ := Node.childFile?_eq_some.1 hfile
    rw [Node.resolve?, habsolute] at hthere
    exact ⟨_, name, there, directory, hsegments, hthere, hfound, hchild, hfile⟩
  · intro hlocates
    cases hsplit : Path.splitLast? path with
    | none =>
      obtain ⟨before, name, -, -, hsegments, -⟩ := hlocates
      simp [Path.splitLast?_eq_none hsplit] at hsegments
    | some parts =>
      obtain ⟨parent, name⟩ := parts
      obtain ⟨hsegments, habsolute⟩ := Path.of_splitLast?_eq_some hsplit
      obtain ⟨there, directory, hway, hdirectory, hchild, hfile⟩ :=
        (locates_iff hsegments).1 hlocates
      refine ⟨parent, name, directory, rfl, directory_eq_ok.2 ⟨there, ?_, hdirectory⟩,
        Node.childFile?_eq_some.2 ⟨hchild, hfile⟩⟩
      rw [Node.resolve?, habsolute]
      exact hway

theorem file_eq_ok : fs.file path = .ok file ↔ Locates fs path file := by
  rw [← file?_eq_some_iff_locates, file_eq]
  cases fs.file? path <;> simp

theorem file_eq_error {fault : Fault} :
    fs.file path = .error fault ↔ fault = .notFound path ∧ ∀ file, ¬Locates fs path file := by
  simp only [← file?_eq_some_iff_locates]
  rw [file_eq]
  cases fs.file? path <;> simp [eq_comm]

/-! ## Entries of the working directory -/

namespace Holds

variable {children : List Node} {node : Node} (h : Holds fs children) (hnode : node ∈ children)
include h hnode

theorem directoryAt?_child (hdir : node.isDirectory) :
    fs.root.directoryAt? (fs.working ++ [node.name]) = some node := by
  obtain ⟨before, after, rfl⟩ := List.append_of_mem hnode
  obtain ⟨directory, hdirectory, hchild⟩ := h.exists_child
  rw [Node.directoryAt?_append, hdirectory, Option.bind_some, Node.directoryAt?_cons,
    Node.subdirectory?_eq_some.2 ⟨hchild, hdir⟩]
  rfl

variable (hsegments : Path.segments path = [node.name]) (hrelative : Path.isAbsolute path = false)
include hsegments hrelative

/-- A path whose one segment is the name of a directory leads there. -/
theorem resolve?_of_segments (hdir : node.isDirectory) :
    fs.root.resolve? fs.working path = some (fs.working ++ [node.name]) := by
  rw [Node.resolve?, hsegments, hrelative]
  refine Node.foldlM_step?_of_names ?_ ⟨node, h.directoryAt?_child hnode hdir⟩
  exact List.forall_mem_singleton.2 (h.named node hnode)

/-- So the directory is found at it. -/
theorem directory_of_segments (hdir : node.isDirectory) : fs.directory path = .ok node :=
  directory_eq_ok.2 ⟨fs.working ++ [node.name],
    h.resolve?_of_segments hnode hsegments hrelative hdir, h.directoryAt?_child hnode hdir⟩

/-- A file is found at a path whose one segment is its name. -/
theorem file_of_segments (hfile : ¬node.isDirectory) : fs.file path = .ok node := by
  obtain ⟨before, after, rfl⟩ := List.append_of_mem hnode
  obtain ⟨directory, hdirectory, hchild⟩ := h.exists_child
  have hlast : Path.segments path = [] ++ [node.name] := hsegments
  refine file_eq_ok.2 ((locates_iff hlast).2 ⟨fs.working, directory, ?_, hdirectory, hchild, hfile⟩)
  rw [hrelative]
  rfl

end Holds

/-- What `cat` comes to where its file is found. -/
theorem run_cat {around : Surroundings} {given : Command.Invocation} {processes : ProcessTable}
    (hpath : given.first? = some path) (hfile : fs.file path = .ok file) :
    (Command.Builtin.cat.run around given).run ⟨fs, processes⟩ =
      .ok (.text file.content) ⟨fs, processes⟩ := by
  simp only [Command.Builtin.cat, Command.Builtin.operand, hpath, pure_bind, EStateM.run_bind,
    EStateM.run_get, hfile]
  rfl

/-! ## Every path -/

/-- A file of the tree is found under the name of an entry. -/
theorem Sound.isName_of_child? (h : fs.Sound ok) {segments : List String} {directory node : Node}
    {name : String} (hdirectory : fs.root.directoryAt? segments = some directory)
    (hchild : directory.child? name = some node) : Path.isName name := by
  obtain ⟨-, below, -, hsound⟩ := h.tree.directoryAt? hdirectory
  exact hsound.filed.named (name, node) (Node.mem_of_lookup hchild)

/-- The last segment of a path that leads to a directory is no file where the file is looked for. -/
theorem Locates.not_directory (h : fs.Sound ok) (hlocates : Locates fs path file)
    (directory : Node) : fs.directory path ≠ .ok directory := by
  intro hok
  obtain ⟨segments, hresolve, hfound⟩ := directory_eq_ok.1 hok
  obtain ⟨before, name, there, place, hsegments, hway, hplace, hchild, hfile⟩ := hlocates
  obtain ⟨-, -, hdot, hdots⟩ := Path.isName_iff.1 (h.isName_of_child? hplace hchild)
  have hnone : place.subdirectory? name = none := by
    simp [Node.subdirectory?, hchild, Option.filter, hfile]
  -- the last step of the walk would enter the file
  rw [Node.resolve?, hsegments, List.foldlM_append, hway] at hresolve
  simp [Node.step?, hdot, hdots, hplace, hnone] at hresolve

theorem locates_append {slashes : String} (hslashes : ∀ c ∈ slashes.toList, c = Path.separator) :
    Locates fs (path ++ slashes) file ↔ Locates fs path file := by
  have hsegments := Path.segments_append_slashes path hslashes
  by_cases hempty : path = ""
  · have hnone : Path.segments path = [] := by rw [hempty, Path.segments_empty]
    simp [Locates, hsegments, hnone]
  · simp only [Locates, hsegments, Path.isAbsolute_append hempty]

theorem Sound.looksUp (h : fs.Sound ok) (path : String) : LooksUp fs path where
  found_iff _ := file_eq_ok
  lost_iff _ := file_eq_error
  noSegments hnone := by
    refine file_eq_error.2 ⟨rfl, fun file hlocates => ?_⟩
    obtain ⟨before, name, there, directory, hsegments, -⟩ := hlocates
    simp [hnone] at hsegments
  hop before name hsegments hway := by
    refine file_eq_error.2 ⟨rfl, fun file hlocates => ?_⟩
    obtain ⟨there, directory, hthere, -⟩ := (locates_iff hsegments).1 hlocates
    simp [hway] at hthere
  step before name hsegments hstep := by
    refine file_eq_error.2 ⟨rfl, fun file hlocates => ?_⟩
    obtain ⟨there, directory, -, hdirectory, hchild, -⟩ := (locates_iff hsegments).1 hlocates
    have hname := Path.isName_iff.1 (h.isName_of_child? hdirectory hchild)
    rcases hstep with rfl | rfl
    · exact hname.2.2.1 rfl
    · exact hname.2.2.2 rfl
  directory before name there directory child hsegments hway hdirectory hchild hdir := by
    refine file_eq_error.2 ⟨rfl, fun file hlocates => ?_⟩
    obtain ⟨place, found, hplace, hfound, hfile, hnot⟩ := (locates_iff hsegments).1 hlocates
    obtain rfl := Option.some.inj (hway.symm.trans hplace)
    obtain rfl := Option.some.inj (hdirectory.symm.trans hfound)
    obtain rfl := Option.some.inj (hchild.symm.trans hfile)
    exact hnot hdir
  slashes slashes hslashes file := by
    rw [file_eq_ok, file_eq_ok, locates_append hslashes]
  apart file directory hfile := (file_eq_ok.1 hfile).not_directory h directory

/-- In every filesystem that operations can lead to, a path names the file at its last segment. -/
theorem looksUp_run {user : String} (huser : Path.isName user) (clock : Nat → Time.Stamp)
    (operations : List Operation) (path : String) :
    LooksUp ((startAt clock user).run operations) path :=
  (sound_run_startAt huser clock operations).looksUp path

/-- A guest finds the file in the home by a way that goes up and ends with slashes, and no file at
the last step of one that passes it. -/
theorem looksUp_run_guest :
    Path.isName "guest" ∧
      LooksUp ((startAt (fun n => .ofNanoseconds n) "guest").run [.changeDirectory "home/guest"])
        "..//guest/welcome.txt//" ∧
      ((startAt (fun n => .ofNanoseconds n) "guest").run [.changeDirectory "home/guest"]).file
        "..//guest/welcome.txt//" =
          .ok (.newFile (.ofNanoseconds 1) "guest" welcomeName welcomeText) ∧
      ((startAt (fun n => .ofNanoseconds n) "guest").run [.changeDirectory "home/guest"]).file
        "welcome.txt/." = .error (.notFound "welcome.txt/.") :=
  ⟨by decide, looksUp_run (by decide) _ _ _, rfl, rfl⟩

end PocketShell.Filesystem
