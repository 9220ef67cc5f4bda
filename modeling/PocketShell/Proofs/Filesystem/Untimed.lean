import PocketShell.Filesystem
import PocketShell.Proofs.Change.Mirror
import PocketShell.Proofs.Tree.Untimed

/-!
# Operations on trees without their times

No operation looks at a time: whatever can be read of a filesystem besides its times can be read
without them, and each operation does to the filesystem without its times what it does to the
filesystem, whatever the time.
-/

namespace PocketShell.Filesystem

open PocketShell.Change (Mirrors mirrors_get_bind mirrors_modify mirrors_reading mirrors_throw)
open Time (Stamp)

/-- The filesystem without the times in its tree. -/
def untimed (fs : Filesystem) : Filesystem :=
  { fs with root := fs.root.untimed }

variable (fs : Filesystem)

/-! ## Reading -/

theorem segmentsOf_untimed (path : String) : fs.untimed.segmentsOf path = fs.segmentsOf path := by
  rw [segmentsOf, untimed, Node.resolve?_untimed, segmentsOf]

theorem directory_untimed (path : String) :
    fs.untimed.directory path = Node.untimed <$> fs.directory path := by
  rw [directory, segmentsOf_untimed, directory]
  cases fs.segmentsOf path with
  | error fault => rfl
  | ok segments =>
    simp only [untimed, Node.directoryAt?_untimed, bind, Except.bind]
    cases fs.root.directoryAt? segments <;> rfl

theorem list_untimed (path : Option String) :
    fs.untimed.list path = List.map Node.untimed <$> fs.list path := by
  rw [list, directory_untimed, list]
  cases fs.directory (path.getD ".") with
  | error fault => rfl
  | ok directory => exact congrArg Except.ok directory.children_untimed

theorem file_untimed (path : String) : fs.untimed.file path = Node.untimed <$> fs.file path := by
  rw [file, file]
  cases Path.splitLast? path with
  | none => rfl
  | some parts =>
    dsimp only
    rw [directory_untimed]
    cases fs.directory parts.1 with
    | error fault => rfl
    | ok directory =>
      simp only [Functor.map, Except.map, Node.childFile?_untimed]
      cases directory.childFile? parts.2 <;> rfl

theorem workingDirectory_untimed :
    fs.untimed.workingDirectory = Node.untimed <$> fs.workingDirectory := by
  rw [workingDirectory, untimed, Node.directoryAt?_untimed, workingDirectory]
  cases fs.root.directoryAt? fs.working <;> rfl

/-! ## Changes -/

theorem untimed_changeEntries {f g : List (String × Node) → List (String × Node)}
    (h : ∀ entries, Node.untimedAll (f entries) = g (Node.untimedAll entries)) :
    (fs.changeEntries f).untimed = fs.untimed.changeEntries g :=
  congrArg (Filesystem.mk · fs.working fs.user)
    (Node.untimed_modifyAt (Node.untimed_mapEntries h) fs.working fs.root)

theorem untimed_changeEntry {f g : Node → Node} (h : ∀ node, (f node).untimed = g node.untimed)
    (name : String) : (fs.changeEntry name f).untimed = fs.untimed.changeEntry name g :=
  untimed_changeEntries fs (Node.untimedAll_modifyNamed h name)

namespace Change

variable {fs}

theorem mirrors_changeDirectory (path : String) :
    Mirrors untimed id (changeDirectory path) (changeDirectory path) fs := by
  have hreading : Mirrors untimed id (PocketShell.Change.reading (·.segmentsOf path))
      (PocketShell.Change.reading (·.segmentsOf path)) fs := by
    refine mirrors_reading ?_
    rw [segmentsOf_untimed, id_map]
  exact hreading.bind fun segments fs => mirrors_modify rfl

theorem mirrors_checkName (name : String) :
    Mirrors untimed id (PocketShell.Change.reading fun _ => checkName name)
      (PocketShell.Change.reading fun _ => checkName name) fs :=
  mirrors_reading (id_map _).symm

theorem mirrors_workingDirectory :
    Mirrors untimed Node.untimed (PocketShell.Change.reading workingDirectory)
      (PocketShell.Change.reading workingDirectory) fs :=
  mirrors_reading (workingDirectory_untimed fs)

theorem mirrors_insert (node : Node) :
    Mirrors untimed id (insert node) (insert node.untimed) fs := by
  refine mirrors_workingDirectory.bind fun directory fs => ?_
  rw [Node.untimed_insert?, Node.name_untimed]
  cases directory.insert? node with
  | none => exact mirrors_throw _
  | some changed =>
    have hreplaced : ∀ node : Node, ((fun _ => changed) node).untimed =
        (fun _ => changed.untimed) node.untimed := fun _ => rfl
    exact mirrors_modify (congrArg (Filesystem.mk · fs.working fs.user)
      (Node.untimed_modifyAt hreplaced fs.working fs.root).symm)

theorem mirrors_createDirectory (now : Stamp) (name : String) :
    Mirrors untimed id (createDirectory now name) (createDirectory .epoch name) fs := by
  refine (mirrors_checkName name).bind fun _ fs => mirrors_get_bind ?_
  rw [show fs.untimed.working = fs.working from rfl]
  split
  · exact mirrors_throw _
  · refine mirrors_get_bind ?_
    have hnew := Node.untimed_newDirectory now fs.user name []
    rw [List.map_nil] at hnew
    rw [show fs.untimed.user = fs.user from rfl, ← hnew]
    exact mirrors_insert _

theorem mirrors_touch (now : Stamp) (name : String) :
    Mirrors untimed id (touch now name) (touch .epoch name) fs := by
  refine (mirrors_checkName name).bind fun _ fs => ?_
  refine mirrors_workingDirectory.bind fun directory fs => ?_
  rw [Node.child?_untimed]
  cases directory.child? name with
  | some node =>
    exact mirrors_modify (untimed_changeEntry fs (Node.untimed_touch now) name).symm
  | none =>
    refine mirrors_get_bind ?_
    rw [show fs.untimed.user = fs.user from rfl, ← Node.untimed_newFile now]
    exact mirrors_insert _

theorem mirrors_remove (name : String) (recursive : Bool) :
    Mirrors untimed id (remove name recursive) (remove name recursive) fs := by
  refine mirrors_workingDirectory.bind fun directory fs => ?_
  rw [Node.child?_untimed]
  cases directory.child? name with
  | none => exact mirrors_throw _
  | some node =>
    have hempty : node.untimed.entries.isEmpty = node.entries.isEmpty := by
      rw [Node.entries_untimed, Node.untimedAll_eq_map, List.isEmpty_map]
    dsimp only [Option.map_some]
    rw [hempty]
    split
    · exact mirrors_throw _
    · exact mirrors_modify
        (untimed_changeEntries fs fun entries => Node.untimedAll_eraseP entries name).symm

end Change

/-! ## New filesystems -/

/-- A new filesystem is the same at any times but for these. -/
theorem untimed_startAt (clock : Nat → Stamp) (user : String) :
    (startAt clock user).untimed = startAt (fun _ => .epoch) user := by
  have hhome : (home clock user).untimed = home (fun _ => .epoch) user := by
    simp [home, Node.untimed_newDirectory, Node.untimed_newFile]
  have hstandard : ∀ place, (standardDirectory clock user place).untimed =
      standardDirectory (fun _ => .epoch) user place := by
    intro place
    rw [standardDirectory, Node.untimed_newDirectory, standardDirectory]
    split
    · rw [List.map_singleton, hhome]
    · rfl
  rw [startAt, untimed, startAt, initialTree, Node.untimed_newDirectory, List.map_map, initialTree]
  simp only [Function.comp_def, hstandard]

end PocketShell.Filesystem
