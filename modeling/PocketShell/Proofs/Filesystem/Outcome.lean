import PocketShell.Proofs.Filesystem.Locality
import PocketShell.Proofs.Filesystem.Reachable
import PocketShell.Proofs.Tree.Children

/-!
# What operations on entries come to

An operation that makes, changes or removes an entry of the working directory is refused for the
first of the causes that apply to it, or else it changes the children of the working directory in
one place. Which of the two, and how, is said of the children alone (`Refused`, `Becomes`), and it
is all that can happen (`outcomes_run`).
-/

namespace PocketShell.Filesystem

open Time (Stamp)

/-! ## Causes and effects -/

/-- The filesystem with other children of the working directory. -/
def withChildren (fs : Filesystem) (children : List Node) : Filesystem :=
  fs.changeEntries fun _ => Node.byName children

/-- The name that an operation checks before it makes or changes an entry of that name. -/
def Operation.checked? : Operation → Option String
  | .createDirectory _ name | .createFile _ name _ | .touch _ name => some name
  | .remove _ _ | .changeDirectory _ | .restore _ | .reset _ => none

/-- Why an operation is refused where the working directory has the given children. Each cause
stands behind those that come before it, so no two of them apply at once. -/
inductive Refused (fs : Filesystem) (children : List Node) : Operation → Fault → Prop
  | invalidName {operation : Operation} {name : String} (hchecked : operation.checked? = some name)
    (hname : ¬Path.isName name) : Refused fs children operation (.invalidName name)
  | tooDeep {now : Stamp} {name : String} (hname : Path.isName name)
    (hdepth : fs.working.length = Path.maxDepth) :
    Refused fs children (.createDirectory now name) (.tooDeep name)
  | alreadyExists {now : Stamp} {node : Node} (hname : Path.isName node.name)
    (hdepth : fs.working.length ≠ Path.maxDepth) (hchild : node ∈ children) :
    Refused fs children (.createDirectory now node.name) (.alreadyExists node.name)
  | isADirectory {now : Stamp} {node : Node} {text : String} (hname : Path.isName node.name)
    (hchild : node ∈ children) (hdirectory : node.isDirectory) :
    Refused fs children (.createFile now node.name text) (.isADirectory node.name)
  | notFound {name : String} {recursive : Bool} (hnone : ∀ node ∈ children, node.name ≠ name) :
    Refused fs children (.remove name recursive) (.notFound name)
  | notEmpty {node : Node} (hchild : node ∈ children) (hdirectory : node.isDirectory)
    (hentries : node.children ≠ []) :
    Refused fs children (.remove node.name false) (.notEmpty node.name)

/-- What an operation makes of the children of the working directory. -/
inductive Becomes (fs : Filesystem) : Operation → List Node → List Node → Prop
  /-- An empty directory of the user comes last. -/
  | newDirectory {now : Stamp} {name : String} {children : List Node} (hname : Path.isName name)
    (hdepth : fs.working.length ≠ Path.maxDepth) (hnew : ∀ node ∈ children, node.name ≠ name) :
    Becomes fs (.createDirectory now name) children
      (children ++ [.directory name ⟨now, now, directoryPermissions, fs.user⟩ []])
  /-- A file of the user comes last. -/
  | newFile {now : Stamp} {name text : String} {children : List Node} (hname : Path.isName name)
    (hnew : ∀ node ∈ children, node.name ≠ name) :
    Becomes fs (.createFile now name text) children
      (children ++ [.file name ⟨now, now, filePermissions, fs.user⟩ text])
  /-- A file stays at its place, with the new text and update time. -/
  | overwritten {now : Stamp} {name text old : String} {attributes : Attributes}
    {before after : List Node} (hname : Path.isName name) :
    Becomes fs (.createFile now name text) (before ++ .file name attributes old :: after)
      (before ++ .file name { attributes with updated := now } text :: after)
  /-- An empty file of the user comes last. -/
  | emptyFile {now : Stamp} {name : String} {children : List Node} (hname : Path.isName name)
    (hnew : ∀ node ∈ children, node.name ≠ name) :
    Becomes fs (.touch now name) children
      (children ++ [.file name ⟨now, now, filePermissions, fs.user⟩ ""])
  /-- A file stays at its place, with the new update time. -/
  | touchedFile {now : Stamp} {name content : String} {attributes : Attributes}
    {before after : List Node} (hname : Path.isName name) :
    Becomes fs (.touch now name) (before ++ .file name attributes content :: after)
      (before ++ .file name { attributes with updated := now } content :: after)
  /-- A directory stays at its place with its entries, with the new update time. -/
  | touchedDirectory {now : Stamp} {name : String} {attributes : Attributes}
    {entries : List (String × Node)} {before after : List Node} (hname : Path.isName name) :
    Becomes fs (.touch now name) (before ++ .directory name attributes entries :: after)
      (before ++ .directory name { attributes with updated := now } entries :: after)
  /-- An entry goes, and all below it. -/
  | removed {node : Node} {recursive : Bool} {before after : List Node}
    (hempty : recursive ∨ node.children = []) :
    Becomes fs (.remove node.name recursive) (before ++ node :: after) (before ++ after)

/-! ## The working directory -/

/-- The working directory has the given children, under names of entries and no two of one name,
and it lies at most as deep as directories may. -/
structure Holds (fs : Filesystem) (children : List Node) : Prop where
  exists_directory : ∃ directory, fs.root.directoryAt? fs.working = some directory ∧
    directory.isDirectory ∧ directory.entries = Node.byName children
  named : ∀ node ∈ children, Path.isName node.name
  nodup : (children.map Node.name).Nodup
  length_le : fs.working.length ≤ Path.maxDepth

variable {fs : Filesystem} {children after : List Node} {ok : Stamp → Prop}

theorem Sound.exists_holds (h : fs.Sound ok) : ∃ children, Holds fs children := by
  obtain ⟨directory, below, hdirectory, hdir, hsound, hlength⟩ := h.exists_directory
  have hfiled := hsound.filed
  refine ⟨directory.children, ⟨directory, hdirectory, hdir, hfiled.byName_children.symm⟩, ?_, ?_,
    by omega⟩
  · rw [← hfiled.byName_children] at hfiled
    intro node hnode
    exact hfiled.named (node.name, node) (List.mem_map_of_mem hnode)
  · have hnodup := hfiled.nodup
    rwa [← hfiled.byName_children, Node.map_fst_byName] at hnodup

theorem list_none {directory : Node} (h : fs.root.directoryAt? fs.working = some directory) :
    fs.list none = .ok directory.children := by
  rw [list, Option.getD_none, directory_eq (segmentsOf_dot fs) h]
  rfl

namespace Holds

/-- What happens to the entries of the working directory is what happens to its children. -/
theorem changeEntries_eq (h : Holds fs children)
    {edit : List (String × Node) → List (String × Node)}
    (hedit : edit (Node.byName children) = Node.byName after) :
    fs.changeEntries edit = fs.withChildren after := by
  obtain ⟨directory, hdirectory, hdir, hentries⟩ := h.exists_directory
  refine congrArg (Filesystem.mk · fs.working fs.user) ?_
  refine Node.modifyAt_congr (Node.nodeAt?_of_directoryAt? hdirectory) ?_
  cases directory with
  | file => cases hdir
  | directory name attributes entries =>
    cases hentries
    exact congrArg (Node.directory name attributes) hedit

/-- Where the working directory finds an entry, its children have one of that name. -/
theorem child?_eq (h : Holds fs children) : ∃ directory,
    fs.root.directoryAt? fs.working = some directory ∧
      ∀ name, directory.child? name = (Node.byName children).lookup name := by
  obtain ⟨directory, hdirectory, -, hentries⟩ := h.exists_directory
  exact ⟨directory, hdirectory, fun name => by rw [Node.child?, hentries]⟩

section
variable {before after : List Node} {node : Node}

theorem exists_child (h : Holds fs (before ++ node :: after)) : ∃ directory,
    fs.root.directoryAt? fs.working = some directory ∧ directory.child? node.name = some node := by
  obtain ⟨directory, hdirectory, hchild⟩ := h.child?_eq
  exact ⟨directory, hdirectory, (hchild node.name).trans (Node.lookup_byName_split h.nodup)⟩

theorem changeEntry_eq (h : Holds fs (before ++ node :: after)) {f : Node → Node}
    (hf : (f node).name = node.name) :
    fs.changeEntry node.name f = fs.withChildren (before ++ f node :: after) :=
  h.changeEntries_eq (Node.modifyNamed_byName_split h.nodup hf)

theorem touch_child (h : Holds fs (before ++ node :: after)) (hname : Path.isName node.name)
    (now : Stamp) :
    fs.touch now node.name = .ok (fs.withChildren (before ++ node.touch now :: after)) := by
  obtain ⟨directory, hdirectory, hchild⟩ := h.exists_child
  rw [touch_eq hdirectory, if_pos hname, hchild]
  exact congrArg Except.ok (h.changeEntry_eq (Node.name_touch now node))

end

/-! ## New children -/

theorem insert_of_new (h : Holds fs children) {node : Node}
    (hnew : ∀ other ∈ children, other.name ≠ node.name) :
    fs.insert node = .ok (fs.withChildren (children ++ [node])) := by
  obtain ⟨directory, hdirectory, hchild⟩ := h.child?_eq
  have hnone : directory.child? node.name = none := by
    rw [hchild, Node.lookup_byName_eq_none.2 hnew]
  have hinsert : directory.insert? node =
      some (directory.mapEntries (· ++ [(node.name, node)])) := by simp [Node.insert?, hnone]
  rw [insert_eq hdirectory, hinsert]
  have hedited : fs.changeEntries (· ++ [(node.name, node)]) =
      fs.withChildren (children ++ [node]) := h.changeEntries_eq (by simp [Node.byName])
  rw [← hedited]
  refine congrArg (fun root => Except.ok (Filesystem.mk root fs.working fs.user)) ?_
  exact Node.modifyAt_congr (Node.nodeAt?_of_directoryAt? hdirectory) rfl

theorem insert_of_mem (h : Holds fs children) {node other : Node} (hother : other ∈ children)
    (hname : other.name = node.name) : fs.insert node = .error (.alreadyExists node.name) := by
  obtain ⟨directory, hdirectory, -, hentries⟩ := h.exists_directory
  have hinsert : directory.insert? node = none := by
    rw [Node.insert?_eq_none, hentries, Node.map_fst_byName, ← hname]
    exact List.mem_map_of_mem hother
  rw [insert_eq hdirectory, hinsert]

/-! ## Every operation -/

/-- An operation that has a cause to be refused is refused for it. -/
theorem apply_of_refused (h : Holds fs children) {operation : Operation} {fault : Fault}
    (hrefused : Refused fs children operation fault) : operation.apply fs = .error fault := by
  obtain ⟨directory, hdirectory, hchild⟩ := h.child?_eq
  cases hrefused with
  | @invalidName operation name hchecked hname =>
    cases operation with
    | createDirectory now made =>
      cases hchecked
      rw [Operation.apply, createDirectory_eq, if_neg hname]
    | createFile now made text =>
      cases hchecked
      rw [Operation.apply, createFile_eq hdirectory, if_neg hname]
    | touch now touched =>
      cases hchecked
      rw [Operation.apply, touch_eq hdirectory, if_neg hname]
    | remove | changeDirectory | restore | reset => cases hchecked
  | tooDeep hname hdepth =>
    rw [Operation.apply, createDirectory_eq, if_pos hname, if_pos (Nat.le_of_eq hdepth.symm)]
  | alreadyExists hname hdepth hmem =>
    -- no working directory is deeper than directories may be
    have hshallow : ¬Path.maxDepth ≤ fs.working.length := by
      have := h.length_le
      omega
    rw [Operation.apply, createDirectory_eq, if_pos hname, if_neg hshallow]
    exact h.insert_of_mem hmem rfl
  | @isADirectory now node text hname hmem hdir =>
    obtain ⟨before, after, rfl⟩ := List.append_of_mem hmem
    obtain ⟨directory, hdirectory, hfound⟩ := h.exists_child
    rw [Operation.apply, createFile_eq hdirectory, if_pos hname, hfound]
    cases node with
    | directory => rfl
    | file => cases hdir
  | notFound hnone =>
    rw [Operation.apply, remove_eq hdirectory, hchild, Node.lookup_byName_eq_none.2 hnone]
  | @notEmpty node hmem hdir hentries =>
    obtain ⟨before, after, rfl⟩ := List.append_of_mem hmem
    obtain ⟨directory, hdirectory, hfound⟩ := h.exists_child
    have hfull : node.entries.isEmpty = false := by simpa [Node.children] using hentries
    rw [Operation.apply, remove_eq hdirectory, hfound]
    simp [hfull]

/-- An operation that can change the children does so, and changes nothing else. -/
theorem apply_of_becomes (h : Holds fs children) {operation : Operation}
    (hbecomes : Becomes fs operation children after) :
    operation.apply fs = .ok (fs.withChildren after) := by
  obtain ⟨directory, hdirectory, hchild⟩ := h.child?_eq
  cases hbecomes with
  | newDirectory hname hdepth hnew =>
    have hshallow : ¬Path.maxDepth ≤ fs.working.length := by
      have := h.length_le
      omega
    rw [Operation.apply, createDirectory_eq, if_pos hname, if_neg hshallow]
    exact h.insert_of_new hnew
  | newFile hname hnew =>
    rw [Operation.apply, createFile_eq hdirectory, if_pos hname, hchild,
      Node.lookup_byName_eq_none.2 hnew]
    exact h.insert_of_new hnew
  | @overwritten now name text old attributes before after hname =>
    obtain ⟨directory, hdirectory, hfound⟩ := h.exists_child
    have hchild : directory.child? name = some (.file name attributes old) := hfound
    rw [Operation.apply, createFile_eq hdirectory, if_pos hname, hchild]
    exact congrArg Except.ok (h.changeEntry_eq (Node.name_write now text _))
  | emptyFile hname hnew =>
    rw [Operation.apply, touch_eq hdirectory, if_pos hname, hchild,
      Node.lookup_byName_eq_none.2 hnew]
    exact h.insert_of_new hnew
  | touchedFile hname => exact h.touch_child hname _
  | touchedDirectory hname => exact h.touch_child hname _
  | @removed node recursive before after hempty =>
    obtain ⟨directory, hdirectory, hfound⟩ := h.exists_child
    have hallowed : (!recursive && !node.entries.isEmpty) = false := by
      rcases hempty with rfl | hempty
      · rfl
      · simpa [Node.children] using fun _ => hempty
    rw [Operation.apply, remove_eq hdirectory, hfound]
    simp only [hallowed, Bool.false_eq_true, if_false]
    exact congrArg Except.ok (h.changeEntries_eq (Node.eraseP_byName_split h.nodup))

end Holds

/-- An operation on an entry is refused or can change the children. -/
theorem refused_or_becomes {operation : Operation} (hentry : operation.entry?.isSome) :
    (∃ fault, Refused fs children operation fault) ∨
      ∃ after, Becomes fs operation children after := by
  cases operation with
  | createDirectory now name =>
    by_cases hname : Path.isName name
    · by_cases hdepth : fs.working.length = Path.maxDepth
      · exact .inl ⟨_, .tooDeep hname hdepth⟩
      · rcases Node.new_or_split children name with hnew | ⟨before, node, after, rfl, rfl⟩
        · exact .inr ⟨_, .newDirectory hname hdepth hnew⟩
        · exact .inl ⟨_, .alreadyExists hname hdepth (by simp)⟩
    · exact .inl ⟨_, .invalidName rfl hname⟩
  | createFile now name text =>
    by_cases hname : Path.isName name
    · rcases Node.new_or_split children name with hnew | ⟨before, node, after, rfl, rfl⟩
      · exact .inr ⟨_, .newFile hname hnew⟩
      · cases node with
        | directory => exact .inl ⟨_, .isADirectory hname List.mem_append_cons_self rfl⟩
        | file => exact .inr ⟨_, .overwritten hname⟩
    · exact .inl ⟨_, .invalidName rfl hname⟩
  | touch now name =>
    by_cases hname : Path.isName name
    · rcases Node.new_or_split children name with hnew | ⟨before, node, after, rfl, rfl⟩
      · exact .inr ⟨_, .emptyFile hname hnew⟩
      · cases node with
        | directory => exact .inr ⟨_, .touchedDirectory hname⟩
        | file => exact .inr ⟨_, .touchedFile hname⟩
    · exact .inl ⟨_, .invalidName rfl hname⟩
  | remove name recursive =>
    rcases Node.new_or_split children name with hnew | ⟨before, node, after, rfl, rfl⟩
    · exact .inl ⟨_, .notFound hnew⟩
    · by_cases hempty : recursive ∨ node.children = []
      · exact .inr ⟨_, .removed hempty⟩
      · obtain ⟨hrecursive, hfull⟩ := not_or.1 hempty
        obtain rfl : recursive = false := by simpa using hrecursive
        cases node with
        | directory => exact .inl ⟨_, .notEmpty List.mem_append_cons_self rfl hfull⟩
        | file => exact absurd rfl hfull
  | changeDirectory | restore | reset => cases hentry

namespace Holds

theorem list_eq (h : Holds fs children) : fs.list none = .ok children := by
  obtain ⟨directory, hdirectory, -, hentries⟩ := h.exists_directory
  rw [list_none hdirectory, Node.children, hentries, Node.map_snd_byName]

theorem list_withChildren (h : Holds fs children) (after : List Node) :
    (fs.withChildren after).list none = .ok after := by
  obtain ⟨directory, hdirectory, hdir, -⟩ := h.exists_directory
  have hthere : (fs.withChildren after).root.directoryAt? fs.working =
      some (directory.mapEntries fun _ => Node.byName after) :=
    Node.directoryAt?_modifyAt hdirectory (by simpa using hdir)
  rw [list_none hthere, Node.children, Node.entries_mapEntries hdir, Node.map_snd_byName]

end Holds

/-- What the operations on entries come to where the working directory has the given children. -/
structure Outcomes (fs : Filesystem) (children : List Node) : Prop where
  listed : fs.list none = .ok children
  refused_iff : ∀ operation, operation.entry?.isSome → ∀ fault,
    operation.apply fs = .error fault ↔ Refused fs children operation fault
  done_iff : ∀ operation, operation.entry?.isSome → ∀ changed,
    operation.apply fs = .ok changed ↔
      ∃ after, Becomes fs operation children after ∧ changed = fs.withChildren after
  listed_after : ∀ after, (fs.withChildren after).list none = .ok after

theorem Holds.outcomes (h : Holds fs children) : Outcomes fs children where
  listed := h.list_eq
  refused_iff operation hentry fault := by
    refine ⟨fun hfault => ?_, h.apply_of_refused⟩
    rcases refused_or_becomes hentry with ⟨other, hother⟩ | ⟨after, hafter⟩
    · rw [h.apply_of_refused hother] at hfault
      cases hfault
      exact hother
    · rw [h.apply_of_becomes hafter] at hfault
      cases hfault
  done_iff operation hentry changed := by
    constructor
    · intro hchanged
      rcases refused_or_becomes hentry with ⟨fault, hfault⟩ | ⟨after, hafter⟩
      · rw [h.apply_of_refused hfault] at hchanged
        cases hchanged
      · rw [h.apply_of_becomes hafter] at hchanged
        cases hchanged
        exact ⟨after, hafter, rfl⟩
    · rintro ⟨after, hafter, rfl⟩
      exact h.apply_of_becomes hafter
  listed_after := h.list_withChildren

/-- In every filesystem that operations can lead to, one that makes, changes or removes an entry is
refused for its first cause, or changes the children of the working directory. -/
theorem outcomes_run {user : String} (huser : Path.isName user) (clock : Nat → Stamp)
    (operations : List Operation) :
    ∃ children, Outcomes ((startAt clock user).run operations) children := by
  obtain ⟨children, hholds⟩ := (sound_run_startAt huser clock operations).exists_holds
  exact ⟨children, hholds.outcomes⟩

/-- A guest may not take away the home, which holds a file, but may with all below it. -/
theorem outcomes_run_guest :
    Path.isName "guest" ∧
      (∃ children, Outcomes ((startAt (fun n => .ofNanoseconds n) "guest").run
        [.changeDirectory "home"]) children) ∧
      (Operation.remove "guest" false).apply ((startAt (fun n => .ofNanoseconds n) "guest").run
        [.changeDirectory "home"]) = .error (.notEmpty "guest") ∧
      ((startAt (fun n => .ofNanoseconds n) "guest").run
        [.changeDirectory "home", .remove "guest" true]).list none = .ok [] :=
  ⟨by decide, outcomes_run (by decide) _ _, rfl, rfl⟩

end PocketShell.Filesystem
