import PocketShell.Proofs.Change
import PocketShell.Proofs.Filesystem.Operation

/-!
# Operations on the tree fail without a trace

Every operation looks first, and changes the filesystem in one go at its end. So one that fails has
changed nothing: it leaves the tree, the working directory and the user as they were.
-/

namespace PocketShell.Filesystem

open PocketShell.Change (Atomic reading steady_get steady_reading steady_throw sure_modify)

theorem Change.atomic_insert (node : Node) : Atomic (Change.insert node) := by
  refine (steady_reading _).bind_atomic fun directory => ?_
  cases directory.insert? node with
  | some changed => exact (sure_modify _).atomic
  | none => exact (steady_throw _).atomic

theorem Change.atomic_createDirectory (now : Time.Stamp) (name : String) :
    Atomic (Change.createDirectory now name) := by
  refine (steady_reading _).bind_atomic fun _ => steady_get.bind_atomic fun fs => ?_
  split
  · exact (steady_throw _).atomic
  · exact steady_get.bind_atomic fun fs => atomic_insert _

theorem Change.atomic_createFile (now : Time.Stamp) (name text : String) :
    Atomic (Change.createFile now name text) := by
  refine (steady_reading _).bind_atomic fun _ => (steady_reading _).bind_atomic fun directory => ?_
  split
  · exact (sure_modify _).atomic
  · exact (steady_throw _).atomic
  · exact steady_get.bind_atomic fun fs => atomic_insert _

theorem Change.atomic_touch (now : Time.Stamp) (name : String) :
    Atomic (Change.touch now name) := by
  refine (steady_reading _).bind_atomic fun _ => (steady_reading _).bind_atomic fun directory => ?_
  split
  · exact (sure_modify _).atomic
  · exact steady_get.bind_atomic fun fs => atomic_insert _

theorem Change.atomic_remove (name : String) (recursive : Bool) :
    Atomic (Change.remove name recursive) := by
  refine (steady_reading _).bind_atomic fun directory => ?_
  split
  · exact (steady_throw _).atomic
  · split
    · exact (steady_throw _).atomic
    · exact (sure_modify _).atomic

/-- A snapshot is decoded before the tree goes, and then nothing can fail. -/
theorem Change.atomic_restore (snapshot : String) : Atomic (Change.restore snapshot) := by
  unfold Change.restore
  split
  · exact ((sure_modify _).bind fun _ => sure_modify _).atomic
  · exact (steady_throw _).atomic

/-- An operation that fails leaves the filesystem as it was. -/
theorem Operation.atomic (operation : Operation) : Atomic operation.change := by
  cases operation with
  | changeDirectory path => exact (steady_reading _).bind_atomic fun _ => (sure_modify _).atomic
  | createDirectory now name => exact Change.atomic_createDirectory now name
  | createFile now name text => exact Change.atomic_createFile now name text
  | touch now name => exact Change.atomic_touch now name
  | remove name recursive => exact Change.atomic_remove name recursive
  | restore snapshot => exact Change.atomic_restore snapshot
  | reset clock => exact (sure_modify _).atomic

theorem Operation.apply_eq (operation : Operation) (fs : Filesystem) :
    operation.apply fs = operation.change.result fs := by
  cases operation <;> rfl

/-- What is left of an operation is what it comes to, or else the filesystem as it was. -/
theorem after_eq (fs : Filesystem) (operation : Operation) :
    fs.after operation = match operation.apply fs with
      | .ok changed => changed
      | .error _ => fs := by
  rw [after, operation.atomic.after_eq, operation.apply_eq]
  cases operation.change.result fs <;> rfl

end PocketShell.Filesystem
