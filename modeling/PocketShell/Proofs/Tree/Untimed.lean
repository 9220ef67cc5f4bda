import PocketShell.Proofs.Tree.Sound

/-!
# Trees without their times

A tree whose times are all replaced by one and the same is the tree up to times. Finding a node in
it, and changing one, comes to the same as in the tree itself: no time is ever looked at.
-/

namespace PocketShell

open Time (Stamp)

/-- The time that stands for every other. -/
def Time.Stamp.epoch : Stamp := .ofNanoseconds 0

/-- The attributes without their times. -/
def Attributes.untimed (attributes : Attributes) : Attributes :=
  { attributes with created := .epoch, updated := .epoch }

namespace Node

mutual

/-- The tree without its times. -/
def untimed : Node → Node
  | directory name attributes entries => directory name attributes.untimed (untimedAll entries)
  | file name attributes content => file name attributes.untimed content

/-- The entries of a directory without their times. -/
def untimedAll : List (String × Node) → List (String × Node)
  | [] => []
  | (key, node) :: rest => (key, node.untimed) :: untimedAll rest

end

/-! ## Entries -/

theorem untimedAll_eq_map (entries : List (String × Node)) :
    untimedAll entries = entries.map fun e => (e.1, e.2.untimed) := by
  induction entries with
  | nil => rw [untimedAll, List.map_nil]
  | cons e rest ih => rw [untimedAll, List.map_cons, ih]

theorem untimedAll_append (first second : List (String × Node)) :
    untimedAll (first ++ second) = untimedAll first ++ untimedAll second := by
  simp only [untimedAll_eq_map, List.map_append]

theorem lookup_untimedAll (entries : List (String × Node)) (name : String) :
    (untimedAll entries).lookup name = (entries.lookup name).map untimed := by
  induction entries with
  | nil => rfl
  | cons e rest ih =>
    obtain ⟨key, node⟩ := e
    rw [untimedAll, List.lookup_cons, List.lookup_cons, ih]
    cases name == key <;> rfl

theorem untimedAll_eraseP (entries : List (String × Node)) (name : String) :
    untimedAll (entries.eraseP (·.1 == name)) = (untimedAll entries).eraseP (·.1 == name) := by
  rw [untimedAll_eq_map, untimedAll_eq_map, List.eraseP_map]
  rfl

/-- An entry is changed in the same way with and without its times. -/
theorem untimedAll_modifyNamed {f g : Node → Node} (h : ∀ node, (f node).untimed = g node.untimed)
    (name : String) (entries : List (String × Node)) :
    untimedAll (modifyNamed name f entries) = modifyNamed name g (untimedAll entries) := by
  induction entries with
  | nil => rw [modifyNamed, untimedAll, modifyNamed]
  | cons e rest ih =>
    obtain ⟨key, node⟩ := e
    rw [modifyNamed, untimedAll, modifyNamed]
    split
    · rw [untimedAll, h]
    · rw [untimedAll, ih]

/-! ## Nodes -/

section
variable (node : Node)

@[simp] theorem name_untimed : node.untimed.name = node.name := by
  cases node <;> rw [untimed] <;> rfl

@[simp] theorem isDirectory_untimed : node.untimed.isDirectory = node.isDirectory := by
  cases node <;> rw [untimed] <;> rfl

@[simp] theorem content_untimed : node.untimed.content = node.content := by
  cases node <;> rw [untimed] <;> rfl

@[simp] theorem entries_untimed : node.untimed.entries = untimedAll node.entries := by
  cases node with
  | directory => rw [untimed]; rfl
  | file => rw [untimed, entries, entries, untimedAll]

@[simp] theorem children_untimed : node.untimed.children = node.children.map untimed := by
  simp [children, untimedAll_eq_map]

@[simp] theorem child?_untimed (name : String) :
    node.untimed.child? name = (node.child? name).map untimed := by
  rw [child?, entries_untimed, lookup_untimedAll, child?]

@[simp] theorem subdirectory?_untimed (name : String) :
    node.untimed.subdirectory? name = (node.subdirectory? name).map untimed := by
  rw [subdirectory?, child?_untimed, subdirectory?]
  simp [Option.filter_map, Function.comp_def]

@[simp] theorem childFile?_untimed (name : String) :
    node.untimed.childFile? name = (node.childFile? name).map untimed := by
  rw [childFile?, child?_untimed, childFile?]
  simp [Option.filter_map, Function.comp_def]

@[simp] theorem directoryAt?_untimed (path : List String) :
    node.untimed.directoryAt? path = (node.directoryAt? path).map untimed := by
  induction path generalizing node with
  | nil => rfl
  | cons segment rest ih =>
    rw [directoryAt?_cons, subdirectory?_untimed, directoryAt?_cons]
    cases node.subdirectory? segment with
    | none => rfl
    | some found => exact ih found

end

/-! ## Walks -/

theorem step?_untimed (root : Node) (here : List String) (segment : String) :
    root.untimed.step? here segment = root.step? here segment := by
  rw [step?, step?, directoryAt?_untimed]
  cases root.directoryAt? here with
  | none => rfl
  | some directory =>
    simp only [Option.map_some, Option.bind_eq_bind, Option.bind_some, subdirectory?_untimed]
    cases directory.subdirectory? segment <;> rfl

theorem resolve?_untimed (root : Node) (working : List String) (path : String) :
    root.untimed.resolve? working path = root.resolve? working path := by
  have hstep : root.untimed.step? = root.step? :=
    funext fun here => funext fun segment => step?_untimed root here segment
  rw [resolve?, hstep, resolve?]

/-! ## Changes -/

/-- A node is touched at any time as at any other. -/
theorem untimed_touch (now : Stamp) (node : Node) :
    (node.touch now).untimed = node.untimed.touch .epoch := by
  cases node <;> simp [touch, untimed, Attributes.untimed]

theorem untimed_mapEntries {f g : List (String × Node) → List (String × Node)}
    (h : ∀ entries, untimedAll (f entries) = g (untimedAll entries)) (node : Node) :
    (node.mapEntries f).untimed = node.untimed.mapEntries g := by
  cases node with
  | directory name attributes entries => rw [mapEntries, untimed, h, untimed, mapEntries]
  | file => rw [mapEntries, untimed, mapEntries]

theorem untimed_insert? (directory child : Node) :
    directory.untimed.insert? child.untimed = (directory.insert? child).map untimed := by
  rw [insert?, name_untimed, child?_untimed, Option.isSome_map, insert?]
  split
  · rfl
  · have hadded := untimed_mapEntries (f := (· ++ [(child.name, child)]))
      (g := (· ++ [(child.name, child.untimed)])) (fun entries => by
        rw [untimedAll_append, untimedAll, untimedAll]) directory
    rw [Option.map_some, hadded]

theorem untimed_modifyAt {f g : Node → Node} (h : ∀ node, (f node).untimed = g node.untimed)
    (path : List String) (root : Node) :
    (root.modifyAt f path).untimed = root.untimed.modifyAt g path := by
  induction path generalizing root with
  | nil => exact h root
  | cons segment rest ih => exact untimed_mapEntries (untimedAll_modifyNamed ih segment) root

/-! ## New nodes -/

theorem untimed_newFile (now : Stamp) (owner name content : String) :
    (newFile now owner name content).untimed = newFile .epoch owner name content := by
  rw [newFile, untimed]
  rfl

theorem untimed_newDirectory (now : Stamp) (owner name : String) (children : List Node) :
    (newDirectory now owner name children).untimed =
      newDirectory .epoch owner name (children.map untimed) := by
  rw [newDirectory, untimed, untimedAll_eq_map]
  simp [newDirectory, byName, Attributes.untimed]

end Node

end PocketShell
