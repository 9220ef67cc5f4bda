import PocketShell.Proofs.Filesystem.Outcome

/-!
# Which names a tree bears

The names in a tree come from the operations that made its entries: where all of these satisfy a
condition, so do the names of the tree at every depth (`named_run`). What is removed or left is no
matter, and what is changed keeps its name.
-/

namespace PocketShell

open Time (Stamp)

variable {ok : String → Prop}

/-! ## Trees -/

namespace Node

/-- The node and all below it bear names that satisfy `ok`. -/
inductive Named (ok : String → Prop) : Node → Prop
  | file {name : String} {attributes : Attributes} {content : String} (hname : ok name) :
    Named ok (.file name attributes content)
  | directory {name : String} {attributes : Attributes} {entries : List (String × Node)}
    (hname : ok name) (hentries : ∀ e ∈ entries, Named ok e.2) :
    Named ok (.directory name attributes entries)

namespace Named

variable {node root found : Node}

theorem name (h : node.Named ok) : ok node.name := by
  cases h with
  | file hname => exact hname
  | directory hname _ => exact hname

theorem entries (h : node.Named ok) : ∀ e ∈ node.entries, e.2.Named ok := by
  cases h with
  | file _ => simp [Node.entries]
  | directory _ hentries => exact hentries

theorem children (h : node.Named ok) : ∀ child ∈ node.children, child.Named ok := by
  intro child hchild
  obtain ⟨e, he, rfl⟩ := List.mem_map.1 hchild
  exact h.entries e he

theorem directoryAt? {segments : List String} (h : root.Named ok)
    (hfound : root.directoryAt? segments = some found) : found.Named ok := by
  induction segments generalizing root with
  | nil => cases hfound; exact h
  | cons segment rest ih =>
    rw [directoryAt?_cons, Option.bind_eq_some_iff] at hfound
    obtain ⟨next, hnext, hfound⟩ := hfound
    have hmem := mem_of_lookup (subdirectory?_eq_some.1 hnext).1
    exact ih (h.entries _ hmem) hfound

theorem mapEntries {f : List (String × Node) → List (String × Node)} (h : node.Named ok)
    (hf : ∀ e ∈ f node.entries, e.2.Named ok) : (node.mapEntries f).Named ok := by
  cases h with
  | file hname => exact .file hname
  | directory hname _ => exact .directory hname hf

/-- A node of the tree may be replaced by any other with such names. -/
theorem modifyAt {f : Node → Node} (h : root.Named ok)
    (hf : ∀ node, node.Named ok → (f node).Named ok) (segments : List String) :
    (root.modifyAt f segments).Named ok := by
  induction segments generalizing root with
  | nil => exact hf root h
  | cons segment rest ih =>
    refine h.mapEntries fun e he => ?_
    rcases mem_modifyNamed he with he | ⟨node, hnode, rfl⟩
    · exact h.entries e he
    · exact ih (h.entries _ (mem_of_lookup hnode))

end Named

theorem named_newDirectory {name : String} {children : List Node} (hname : ok name)
    (hchildren : ∀ child ∈ children, child.Named ok) (now : Stamp) (owner : String) :
    (newDirectory now owner name children).Named ok := by
  refine .directory hname fun e he => ?_
  obtain ⟨child, hchild, rfl⟩ := List.mem_map.1 he
  exact hchildren child hchild

end Node

namespace Filesystem

variable {fs : Filesystem} {operation : Operation} {children after : List Node}

/-! ## New filesystems -/

theorem named_standardDirectory {user : String} {place : String × Nat} (hplace : ok place.1)
    (huser : ok user) (hwelcome : ok welcomeName) (clock : Nat → Stamp) :
    (standardDirectory clock user place).Named ok := by
  refine Node.named_newDirectory hplace (fun child hchild => ?_) _ _
  split at hchild
  · rw [List.mem_singleton.1 hchild]
    exact Node.named_newDirectory huser (List.forall_mem_singleton.2 (.file hwelcome)) _ _
  · cases hchild

/-- The names in a new tree: the user's, and those that are in every one. -/
theorem named_startAt {user : String} (hstandard : ∀ name ∈ standardDirectories, ok name)
    (hroot : ok Snapshot.rootName) (hwelcome : ok welcomeName) (huser : ok user)
    (clock : Nat → Stamp) : (startAt clock user).root.Named ok := by
  refine Node.named_newDirectory hroot (fun child hchild => ?_) _ _
  obtain ⟨place, hplace, rfl⟩ := List.mem_map.1 hchild
  have hname : ok place.1 := hstandard _ (List.fst_mem_of_mem_zipIdx hplace)
  exact named_standardDirectory hname huser hwelcome clock

/-! ## Operations -/

/-- The operation gives entries names that satisfy `ok` and no others. One that puts another tree in
place gives names that it is not told. -/
def Operation.Names (ok : String → Prop) : Operation → Prop
  | createDirectory _ name | createFile _ name _ | touch _ name => ok name
  | remove _ _ | changeDirectory _ => True
  | restore _ | reset _ => False

/-- A child stays in place, with a change that keeps its names. -/
theorem forall_named_replace {before : List Node} {node changed : Node}
    (h : ∀ other ∈ before ++ node :: after, other.Named ok)
    (hchanged : node.Named ok → changed.Named ok) :
    ∀ other ∈ before ++ changed :: after, other.Named ok := by
  obtain ⟨hbefore, hrest⟩ := List.forall_mem_append.1 h
  obtain ⟨hnode, hafter⟩ := List.forall_mem_cons.1 hrest
  exact List.forall_mem_append.2 ⟨hbefore, List.forall_mem_cons.2 ⟨hchanged hnode, hafter⟩⟩

/-- What an operation makes of the children of the working directory bears the names of the children
and those that the operation gives. -/
theorem Becomes.named (h : Becomes fs operation children after) (hoperation : operation.Names ok)
    (hchildren : ∀ node ∈ children, node.Named ok) : ∀ node ∈ after, node.Named ok := by
  cases h with
  | newDirectory =>
    refine List.forall_mem_append.2 ⟨hchildren, List.forall_mem_singleton.2 ?_⟩
    exact .directory hoperation (by simp)
  | newFile | emptyFile =>
    exact List.forall_mem_append.2 ⟨hchildren, List.forall_mem_singleton.2 (.file hoperation)⟩
  | overwritten | touchedFile =>
    exact forall_named_replace hchildren fun hnode => .file hnode.name
  | touchedDirectory =>
    exact forall_named_replace hchildren fun hnode => .directory hnode.name hnode.entries
  | removed =>
    obtain ⟨hbefore, hrest⟩ := List.forall_mem_append.1 hchildren
    exact List.forall_mem_append.2 ⟨hbefore, (List.forall_mem_cons.1 hrest).2⟩

theorem Holds.named_children (h : Holds fs children) (hnamed : fs.root.Named ok) :
    ∀ node ∈ children, node.Named ok := by
  obtain ⟨directory, hdirectory, -, hentries⟩ := h.exists_directory
  have hbelow := (hnamed.directoryAt? hdirectory).children
  rwa [Node.children, hentries, Node.map_snd_byName] at hbelow

theorem named_withChildren (h : fs.root.Named ok) (hafter : ∀ node ∈ after, node.Named ok) :
    (fs.withChildren after).root.Named ok := by
  refine h.modifyAt (fun node hnode => hnode.mapEntries fun e he => ?_) _
  obtain ⟨child, hchild, rfl⟩ := List.mem_map.1 he
  exact hafter child hchild

theorem named_after_of_entry (hholds : Holds fs children) (hentry : operation.entry?.isSome)
    (h : fs.root.Named ok) (hoperation : operation.Names ok) :
    (fs.after operation).root.Named ok := by
  rw [after_eq]
  rcases refused_or_becomes hentry with ⟨fault, hfault⟩ | ⟨after, hafter⟩
  · rw [hholds.apply_of_refused hfault]
    exact h
  · rw [hholds.apply_of_becomes hafter]
    exact named_withChildren h (hafter.named hoperation (hholds.named_children h))

/-- An operation adds no other names to a tree than those that it gives. -/
theorem Sound.named_after (hsound : fs.Sound fun _ => True) (h : fs.root.Named ok)
    (hoperation : operation.Names ok) : (fs.after operation).root.Named ok := by
  obtain ⟨children, hholds⟩ := hsound.exists_holds
  cases operation with
  | createDirectory | createFile | touch | remove =>
    exact named_after_of_entry hholds rfl h hoperation
  | changeDirectory path =>
    rw [root_after_changeDirectory]
    exact h
  | restore | reset => exact hoperation.elim

/-- After a run, a tree bears the names that it bore and those that the operations gave. -/
theorem Sound.named_run (hsound : fs.Sound fun _ => True) (h : fs.root.Named ok)
    {operations : List Operation} (hoperations : ∀ operation ∈ operations, operation.Names ok) :
    (fs.run operations).root.Named ok := by
  -- the tree stays sound, so each operation finds the children that it changes
  induction operations generalizing fs with
  | nil => exact h
  | cons operation rest ih =>
    obtain ⟨hfirst, hrest⟩ := List.forall_mem_cons.1 hoperations
    exact ih (hsound.run_untimed [operation]) (hsound.named_after h hfirst) hrest

end Filesystem

end PocketShell
