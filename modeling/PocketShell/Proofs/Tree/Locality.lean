import PocketShell.Proofs.Tree.Sound

/-!
# What a change deep in a tree leaves alone

A node of the tree is reached through the names of entries. Whoever changes a directory of the tree
in what one name is filed under changes nothing that is reached otherwise: neither what those nodes
show of themselves nor the names of their entries.
-/

namespace PocketShell.Node

/-- The node reached through the named entries. -/
def nodeAt? (root : Node) (path : List String) : Option Node :=
  path.foldlM child? root

/-- What a node is by itself: a directory without its entries, or a file. -/
def bare (node : Node) : Node :=
  node.mapEntries fun _ => []

/-- The names under which the entries of a directory are filed, in order. -/
def names (node : Node) : List String :=
  node.entries.map (·.1)

theorem nodeAt?_cons (root : Node) (segment : String) (rest : List String) :
    root.nodeAt? (segment :: rest) = (root.child? segment).bind (·.nodeAt? rest) := by
  simp [nodeAt?]

/-- A directory of the tree is one of its nodes. -/
theorem nodeAt?_of_directoryAt? {path : List String} {root found : Node}
    (h : root.directoryAt? path = some found) : root.nodeAt? path = some found := by
  induction path generalizing root with
  | nil => exact h
  | cons segment rest ih =>
    rw [directoryAt?_cons, Option.bind_eq_some_iff] at h
    obtain ⟨next, hnext, h⟩ := h
    rw [nodeAt?_cons, (subdirectory?_eq_some.1 hnext).1]
    exact ih h

@[simp] theorem bare_mapEntries (f : List (String × Node) → List (String × Node)) (node : Node) :
    (node.mapEntries f).bare = node.bare := by
  cases node <;> rfl

@[simp] theorem entries_mapEntries {node : Node} (h : node.isDirectory)
    (f : List (String × Node) → List (String × Node)) :
    (node.mapEntries f).entries = f node.entries := by
  cases node with
  | directory => rfl
  | file => cases h

theorem names_modifyNamed (name : String) (f : Node → Node) (node : Node) :
    (node.mapEntries (modifyNamed name f)).names = node.names := by
  cases node with
  | file => rfl
  | directory => exact keys_modifyNamed name f _

/-! ## One name of a directory -/

/-- The entries of a directory before and after a change of what is filed under a name: it is added
at the end, changed where it is, or taken away. -/
inductive ChangedAt (name : String) : List (String × Node) → List (String × Node) → Prop
  | added {entries : List (String × Node)} (node : Node) : name ∉ entries.map (·.1) →
    ChangedAt name entries (entries ++ [(name, node)])
  | altered {entries : List (String × Node)} (f : Node → Node) : name ∈ entries.map (·.1) →
    ChangedAt name entries (modifyNamed name f entries)
  | removed {entries : List (String × Node)} : name ∈ entries.map (·.1) →
    ChangedAt name entries (entries.eraseP (·.1 == name))

theorem lookup_cons_of_ne {key other : String} (h : other ≠ key) (node : Node)
    (rest : List (String × Node)) : ((key, node) :: rest).lookup other = rest.lookup other := by
  rw [List.lookup_cons, beq_false_of_ne h]

theorem lookup_modifyNamed_of_ne {name other : String} (h : other ≠ name) (f : Node → Node)
    (entries : List (String × Node)) :
    (modifyNamed name f entries).lookup other = entries.lookup other := by
  induction entries with
  | nil => rfl
  | cons e rest ih =>
    obtain ⟨key, node⟩ := e
    rw [modifyNamed]
    split
    · rename_i hkey
      rw [hkey, lookup_cons_of_ne h, lookup_cons_of_ne h]
    · rw [List.lookup_cons, List.lookup_cons, ih]

theorem lookup_eraseP_of_ne {name other : String} (h : other ≠ name)
    (entries : List (String × Node)) :
    (entries.eraseP (·.1 == name)).lookup other = entries.lookup other := by
  induction entries with
  | nil => rfl
  | cons e rest ih =>
    obtain ⟨key, node⟩ := e
    by_cases hkey : key = name
    · rw [List.eraseP_cons_of_pos (by simpa using hkey), hkey, lookup_cons_of_ne h]
    · rw [List.eraseP_cons_of_neg (by simpa using hkey), List.lookup_cons, List.lookup_cons, ih]

/-- What is filed under other names stays. -/
theorem ChangedAt.lookup_of_ne {name other : String} {before after : List (String × Node)}
    (h : ChangedAt name before after) (hne : other ≠ name) :
    after.lookup other = before.lookup other := by
  cases h with
  | added node _ =>
    rw [List.lookup_append, lookup_cons_of_ne hne, List.lookup_nil, Option.or_none]
  | altered f _ => exact lookup_modifyNamed_of_ne hne f before
  | removed _ => exact lookup_eraseP_of_ne hne before

/-! ## One directory of a tree -/

section
variable {root directory : Node} {path other : List String} {name : String} {f : Node → Node}

theorem child?_modifyNamed_of_ne {segment : String} (h : segment ≠ name) (g : Node → Node)
    (node : Node) :
    (node.mapEntries (modifyNamed name g)).child? segment = node.child? segment := by
  cases node with
  | file => rfl
  | directory => exact lookup_modifyNamed_of_ne h g _

/-- The change of a directory of the tree is seen where it is made. -/
theorem nodeAt?_modifyAt (h : root.nodeAt? path = some directory) (f : Node → Node) :
    (root.modifyAt f path).nodeAt? path = some (f directory) := by
  induction path generalizing root with
  | nil => cases h; rfl
  | cons segment rest ih =>
    rw [nodeAt?_cons, Option.bind_eq_some_iff] at h
    obtain ⟨next, hnext, h⟩ := h
    rw [modifyAt, nodeAt?_cons, child?_modifyNamed, hnext]
    exact ih h

/-- A change of what one name of a directory leads to is not seen elsewhere: not by a `view` that
sees nothing of a directory but itself and the names in it, the changed directory perhaps
excepted. -/
theorem map_nodeAt?_modifyAt {α : Type} {view : Node → α}
    (hview : ∀ segment g node, view (node.mapEntries (modifyNamed segment g)) = view node)
    (hfound : root.nodeAt? path = some directory)
    (hothers : ∀ segment ≠ name, (f directory).child? segment = directory.child? segment)
    (hplace : other = path → view (f directory) = view directory)
    (hother : ¬path ++ [name] <+: other) :
    ((root.modifyAt f path).nodeAt? other).map view = (root.nodeAt? other).map view := by
  induction path generalizing root other with
  | nil =>
    cases hfound
    cases other with
    | nil => exact congrArg some (hplace rfl)
    | cons segment rest =>
      have hne : segment ≠ name := fun heq => hother ⟨rest, by rw [heq]; rfl⟩
      rw [modifyAt, nodeAt?_cons, nodeAt?_cons, hothers segment hne]
  | cons first below ih =>
    rw [nodeAt?_cons, Option.bind_eq_some_iff] at hfound
    obtain ⟨next, hnext, hfound⟩ := hfound
    rw [modifyAt]
    cases other with
    | nil => exact congrArg some (hview first _ root)
    | cons segment rest =>
      rw [nodeAt?_cons, nodeAt?_cons]
      by_cases hsegment : segment = first
      · subst hsegment
        rw [child?_modifyNamed, hnext, Option.map_some, Option.bind_some, Option.bind_some]
        refine ih hfound (fun heq => hplace (by rw [heq])) fun hprefix => hother ?_
        exact List.cons_prefix_cons.2 ⟨rfl, hprefix⟩
      · rw [child?_modifyNamed_of_ne hsegment]

theorem modifyNamed_congr {entries : List (String × Node)} {node : Node} {g : Node → Node}
    (h : entries.lookup name = some node) (heq : f node = g node) :
    modifyNamed name f entries = modifyNamed name g entries := by
  induction entries with
  | nil => rfl
  | cons e rest ih =>
    obtain ⟨key, first⟩ := e
    rw [modifyNamed, modifyNamed]
    by_cases hkey : key = name
    · subst hkey
      rw [List.lookup_cons_self] at h
      cases h
      rw [if_pos rfl, if_pos rfl, heq]
    · rw [lookup_cons_of_ne (Ne.symm hkey)] at h
      rw [if_neg hkey, if_neg hkey, ih h]

/-- Only what happens to the node that is reached matters. -/
theorem modifyAt_congr {g : Node → Node} (h : root.nodeAt? path = some directory)
    (heq : f directory = g directory) : root.modifyAt f path = root.modifyAt g path := by
  induction path generalizing root with
  | nil => cases h; exact heq
  | cons segment rest ih =>
    rw [nodeAt?_cons, Option.bind_eq_some_iff] at h
    obtain ⟨next, hnext, h⟩ := h
    cases root with
    | file => rfl
    | directory name attributes entries =>
      have hentries : modifyNamed segment (modifyAt f rest) entries =
          modifyNamed segment (modifyAt g rest) entries := modifyNamed_congr hnext (ih h)
      exact congrArg (Node.directory name attributes) hentries

end

end PocketShell.Node
