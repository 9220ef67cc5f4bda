import PocketShell.Tree.Resolve

/-!
# Sound trees

A tree is sound when each directory files its entries under their own names, no name twice and all
of them names that an entry can bear, and when no directory lies deeper than a given number of
levels. The times of its nodes are held to a condition `ok` of their own, so that one induction
serves for the shape of a tree and for what its clock has shown. Soundness is local: a directory of
the tree can be replaced by any other that is as sound, under the same name.
-/

namespace PocketShell

open Time (Stamp)

/-- The times that a node shows satisfy `ok`. -/
def Attributes.Timed (ok : Stamp → Prop) (attributes : Attributes) : Prop :=
  ok attributes.created ∧ ok attributes.updated

namespace Node

/-- Induction over a tree: a directory follows from all its entries. -/
theorem induction {motive : Node → Prop}
    (file : ∀ name attributes content, motive (.file name attributes content))
    (directory : ∀ name attributes entries, (∀ e ∈ entries, motive e.2) →
      motive (.directory name attributes entries)) :
    ∀ node, motive node
  | .file name attributes content => file name attributes content
  | .directory name attributes entries => directory name attributes entries fun e he => by
    have hlt := List.sizeOf_lt_of_mem he
    have hsnd : sizeOf e.2 < sizeOf e := by
      cases e
      simp only [Prod.mk.sizeOf_spec]
      omega
    exact induction file directory e.2

/-! ## Entries of one directory -/

/-- Entries filed under their own names, which are names of entries and all different. -/
structure Filed (entries : List (String × Node)) : Prop where
  key_eq : ∀ e ∈ entries, e.1 = e.2.name
  named : ∀ e ∈ entries, Path.isName e.1
  nodup : (entries.map (·.1)).Nodup

theorem mem_of_lookup {entries : List (String × Node)} {name : String} {node : Node}
    (h : entries.lookup name = some node) : (name, node) ∈ entries := by
  obtain ⟨before, after, rfl, -⟩ := List.lookup_eq_some_iff.1 h
  simp

theorem filed_byName {nodes : List Node} (hnamed : ∀ node ∈ nodes, Path.isName node.name)
    (hnodup : (nodes.map name).Nodup) : Filed (byName nodes) where
  key_eq := by simp [byName]
  named := by simpa [byName] using hnamed
  nodup := by simpa [byName, Function.comp_def] using hnodup

theorem Filed.nodup_names {entries : List (String × Node)} (h : Filed entries) :
    (entries.map (·.2.name)).Nodup := by
  have heq : entries.map (·.1) = entries.map (·.2.name) := List.map_congr_left h.key_eq
  rw [← heq]
  exact h.nodup

theorem Filed.sublist {entries kept : List (String × Node)} (h : Filed entries)
    (hsub : kept.Sublist entries) : Filed kept where
  key_eq e he := h.key_eq e (hsub.mem he)
  named e he := h.named e (hsub.mem he)
  nodup := h.nodup.sublist (hsub.map _)

theorem lookup_isSome_iff_mem_keys {entries : List (String × Node)} {name : String} :
    (entries.lookup name).isSome ↔ name ∈ entries.map (·.1) := by
  simp only [List.lookup_isSome_iff, List.mem_map, beq_iff_eq]
  constructor
  · rintro ⟨e, he, heq⟩; exact ⟨e, he, heq.symm⟩
  · rintro ⟨e, he, heq⟩; exact ⟨e, he, heq.symm⟩

theorem nodup_keys_append {entries : List (String × Node)} {name : String} (node : Node)
    (h : (entries.map (·.1)).Nodup) (hnew : entries.lookup name = none) :
    ((entries ++ [(name, node)]).map (·.1)).Nodup := by
  have hmem : name ∉ entries.map (·.1) := by
    rw [← lookup_isSome_iff_mem_keys, hnew]
    exact Bool.false_ne_true
  rw [List.map_append, List.nodup_append]
  refine ⟨h, by simp, ?_⟩
  rintro key hkey _ hsingle rfl
  cases List.mem_singleton.1 hsingle
  exact hmem hkey

/-- A new name at the end. -/
theorem Filed.append {entries : List (String × Node)} {node : Node} (h : Filed entries)
    (hnamed : Path.isName node.name) (hnew : entries.lookup node.name = none) :
    Filed (entries ++ [(node.name, node)]) where
  key_eq e he := by
    rcases List.mem_append.1 he with he | he
    · exact h.key_eq e he
    · rw [List.mem_singleton.1 he]
  named e he := by
    rcases List.mem_append.1 he with he | he
    · exact h.named e he
    · rw [List.mem_singleton.1 he]; exact hnamed
  nodup := nodup_keys_append node h.nodup hnew

/-! ### Changing one entry -/

theorem keys_modifyNamed (name : String) (f : Node → Node) (entries : List (String × Node)) :
    (modifyNamed name f entries).map (·.1) = entries.map (·.1) := by
  induction entries with
  | nil => rfl
  | cons e rest ih =>
    simp only [modifyNamed]
    split <;> simp [ih]

theorem lookup_modifyNamed (name : String) (f : Node → Node) (entries : List (String × Node)) :
    (modifyNamed name f entries).lookup name = (entries.lookup name).map f := by
  induction entries with
  | nil => rfl
  | cons e rest ih =>
    obtain ⟨key, node⟩ := e
    by_cases h : key = name
    · subst h; simp [modifyNamed]
    · have hne : (name == key) = false := by simpa using fun heq => h heq.symm
      simp [modifyNamed, h, List.lookup_cons, hne, ih]

theorem mem_modifyNamed {name : String} {f : Node → Node} {entries : List (String × Node)}
    {e : String × Node} (h : e ∈ modifyNamed name f entries) :
    e ∈ entries ∨ ∃ node, entries.lookup name = some node ∧ e = (name, f node) := by
  induction entries with
  | nil => simp [modifyNamed] at h
  | cons first rest ih =>
    obtain ⟨key, node⟩ := first
    by_cases hkey : key = name
    · subst hkey
      simp only [modifyNamed, ite_true, List.mem_cons] at h
      rcases h with rfl | h
      · exact .inr ⟨node, by simp, rfl⟩
      · exact .inl (List.mem_cons_of_mem _ h)
    · have hne : (name == key) = false := by simpa using fun heq => hkey heq.symm
      simp only [modifyNamed, hkey, ite_false, List.mem_cons] at h
      rcases h with rfl | h
      · exact .inl (List.mem_cons_self ..)
      · rcases ih h with h | ⟨found, hfound, rfl⟩
        · exact .inl (List.mem_cons_of_mem _ h)
        · exact .inr ⟨found, by simpa [List.lookup_cons, hne] using hfound, rfl⟩

theorem Filed.modifyNamed {entries : List (String × Node)} {name : String} {f : Node → Node}
    (h : Filed entries) (hf : ∀ node, entries.lookup name = some node → (f node).name = node.name) :
    Filed (modifyNamed name f entries) where
  key_eq e he := by
    rcases mem_modifyNamed he with he | ⟨node, hnode, rfl⟩
    · exact h.key_eq e he
    · rw [hf node hnode]; exact h.key_eq _ (mem_of_lookup hnode)
  named e he := by
    rcases mem_modifyNamed he with he | ⟨node, hnode, rfl⟩
    · exact h.named e he
    · exact h.named (name, node) (mem_of_lookup hnode)
  nodup := by rw [keys_modifyNamed]; exact h.nodup

/-! ## Trees -/

/-- The tree is sound, and its directories fill at most the given number of levels. -/
inductive Sound (ok : Stamp → Prop) : Nat → Node → Prop
  | file {levels : Nat} {name : String} {attributes : Attributes} (content : String) :
    attributes.Timed ok → Sound ok levels (.file name attributes content)
  | directory {levels : Nat} {name : String} {attributes : Attributes}
      {entries : List (String × Node)} :
    attributes.Timed ok → Filed entries → (∀ e ∈ entries, Sound ok levels e.2) →
      Sound ok (levels + 1) (.directory name attributes entries)

section
variable {ok : Stamp → Prop} {levels : Nat}

theorem Sound.mono {more : Nat} {node : Node} (h : Sound ok levels node) (hle : levels ≤ more) :
    Sound ok more node := by
  induction h generalizing more with
  | file content ht => exact .file content ht
  | directory ht hfiled _ ih =>
    obtain ⟨below, rfl⟩ := Nat.exists_eq_add_of_le' (Nat.le_of_add_left_le hle)
    exact .directory ht hfiled fun e he => ih e he (Nat.le_of_succ_le_succ hle)

theorem Sound.timed {node : Node} (h : Sound ok levels node) : node.attributes.Timed ok := by
  cases h with
  | file _ ht => exact ht
  | directory ht _ _ => exact ht

theorem Sound.filed {node : Node} (h : Sound ok levels node) : Filed node.entries := by
  cases h with
  | file => exact ⟨by simp [entries], by simp [entries], by simp [entries]⟩
  | directory _ hfiled _ => exact hfiled

/-- A sound directory has a level of its own, and its entries fill the others. -/
theorem Sound.of_isDirectory {node : Node} (h : Sound ok levels node) (hd : node.isDirectory) :
    ∃ below, levels = below + 1 ∧ Filed node.entries ∧ ∀ e ∈ node.entries, Sound ok below e.2 := by
  cases h with
  | file => simp [isDirectory] at hd
  | @directory below _ _ _ _ hfiled hall => exact ⟨below, rfl, hfiled, hall⟩

/-- What the name of an entry leads to. -/
theorem Sound.child? {node found : Node} {name : String} (h : Sound ok (levels + 1) node)
    (hfound : node.child? name = some found) :
    Sound ok levels found ∧ found.name = name ∧ Path.isName name := by
  cases h with
  | file => simp [Node.child?, entries] at hfound
  | directory _ hfiled hall =>
    have hmem : (name, found) ∈ _ := mem_of_lookup hfound
    exact ⟨hall _ hmem, (hfiled.key_eq _ hmem).symm, hfiled.named (name, found) hmem⟩

theorem Sound.mapEntries {node : Node} {f : List (String × Node) → List (String × Node)}
    (h : Sound ok (levels + 1) node) (hfiled : Filed node.entries → Filed (f node.entries))
    (hall : (∀ e ∈ node.entries, Sound ok levels e.2) → ∀ e ∈ f node.entries, Sound ok levels e.2) :
    Sound ok (levels + 1) (node.mapEntries f) := by
  cases h with
  | file content ht => exact .file content ht
  | directory ht hf ha => exact .directory ht (hfiled hf) (hall ha)

@[simp] theorem name_mapEntries (f : List (String × Node) → List (String × Node)) (node : Node) :
    (node.mapEntries f).name = node.name := by
  cases node <;> rfl

@[simp] theorem isDirectory_mapEntries (f : List (String × Node) → List (String × Node))
    (node : Node) : (node.mapEntries f).isDirectory = node.isDirectory := by
  cases node <;> rfl

/-! ### Changes to one node -/

@[simp] theorem name_touch (now : Stamp) (node : Node) : (node.touch now).name = node.name := by
  cases node <;> rfl

@[simp] theorem name_write (now : Stamp) (text : String) (node : Node) :
    (node.write now text).name = node.name := by
  cases node <;> rfl

theorem Sound.touch {node : Node} {now : Stamp} (h : Sound ok levels node) (hnow : ok now) :
    Sound ok levels (node.touch now) := by
  cases h with
  | file content ht => exact .file content ⟨ht.1, hnow⟩
  | directory ht hfiled hall => exact .directory ⟨ht.1, hnow⟩ hfiled hall

theorem Sound.write {node : Node} {now : Stamp} {text : String} (h : Sound ok levels node)
    (hnow : ok now) : Sound ok levels (node.write now text) := by
  cases h with
  | file content ht => exact .file text ⟨ht.1, hnow⟩
  | directory ht hfiled hall => exact .directory ht hfiled hall

@[simp] theorem name_newFile (now : Stamp) (owner name content : String) :
    (newFile now owner name content).name = name := rfl

@[simp] theorem name_newDirectory (now : Stamp) (owner name : String) (children : List Node) :
    (newDirectory now owner name children).name = name := rfl

theorem sound_newFile {now : Stamp} (hnow : ok now) (owner name content : String) :
    Sound ok levels (newFile now owner name content) :=
  .file content ⟨hnow, hnow⟩

theorem sound_newDirectory {now : Stamp} {children : List Node} (hnow : ok now)
    (owner name : String) (hnamed : ∀ child ∈ children, Path.isName child.name)
    (hnodup : (children.map Node.name).Nodup) (hall : ∀ child ∈ children, Sound ok levels child) :
    Sound ok (levels + 1) (newDirectory now owner name children) := by
  refine .directory ⟨hnow, hnow⟩ (filed_byName hnamed hnodup) ?_
  simpa [byName] using hall

theorem insert?_eq_none {directory child : Node} :
    directory.insert? child = none ↔ child.name ∈ directory.entries.map (·.1) := by
  rw [← lookup_isSome_iff_mem_keys, insert?, child?]
  split <;> simp_all

theorem insert?_eq_some {directory child changed : Node}
    (h : directory.insert? child = some changed) :
    directory.child? child.name = none ∧
      changed = directory.mapEntries (· ++ [(child.name, child)]) := by
  unfold insert? at h
  split at h
  · cases h
  · rename_i hnone
    exact ⟨by simpa using hnone, by simpa using h.symm⟩

theorem Sound.insert? {directory child changed : Node} (h : Sound ok (levels + 1) directory)
    (hchild : Sound ok levels child) (hnamed : Path.isName child.name)
    (hchanged : directory.insert? child = some changed) : Sound ok (levels + 1) changed := by
  obtain ⟨hnew, rfl⟩ := insert?_eq_some hchanged
  refine h.mapEntries (·.append hnamed hnew) ?_
  intro hall e he
  rcases List.mem_append.1 he with he | he
  · exact hall e he
  · rw [List.mem_singleton.1 he]; exact hchild

/-! ### Walks -/

theorem directoryAt?_cons (root : Node) (segment : String) (rest : List String) :
    root.directoryAt? (segment :: rest) =
      (root.subdirectory? segment).bind (·.directoryAt? rest) := by
  simp [directoryAt?]

theorem directoryAt?_append (root : Node) (xs ys : List String) :
    root.directoryAt? (xs ++ ys) = (root.directoryAt? xs).bind (·.directoryAt? ys) := by
  simp [directoryAt?]

theorem subdirectory?_eq_some {node found : Node} {name : String} :
    node.subdirectory? name = some found ↔ node.child? name = some found ∧ found.isDirectory := by
  simp [subdirectory?, Option.filter_eq_some_iff]

/-- A walk through a sound tree passes names of entries, goes down a level with each, and ends at a
sound directory. -/
theorem Sound.directoryAt? {segments : List String} {root found : Node}
    (h : Sound ok levels root) (hfound : root.directoryAt? segments = some found) :
    (∀ segment ∈ segments, Path.isName segment) ∧
      ∃ below, levels = below + segments.length ∧ Sound ok below found := by
  induction segments generalizing levels root with
  | nil =>
    cases hfound
    exact ⟨by simp, levels, rfl, h⟩
  | cons segment rest ih =>
    rw [directoryAt?_cons, Option.bind_eq_some_iff] at hfound
    obtain ⟨next, hnext, hfound⟩ := hfound
    have hchild := (subdirectory?_eq_some.1 hnext).1
    cases h with
    | file => simp [Node.child?, entries] at hchild
    | @directory levels _ _ _ ht hfiled hall =>
      obtain ⟨hsound, -, hname⟩ := (Sound.directory ht hfiled hall).child? hchild
      obtain ⟨hnames, below, rfl, hbelow⟩ := ih hsound hfound
      refine ⟨?_, below, by simp; omega, hbelow⟩
      simpa [hname] using hnames

theorem isDirectory_of_directoryAt? {segments : List String} {root found : Node}
    (hroot : root.isDirectory) (h : root.directoryAt? segments = some found) :
    found.isDirectory := by
  induction segments generalizing root with
  | nil => cases h; exact hroot
  | cons segment rest ih =>
    rw [directoryAt?_cons, Option.bind_eq_some_iff] at h
    obtain ⟨next, hnext, h⟩ := h
    exact ih (subdirectory?_eq_some.1 hnext).2 h

/-! ### Replacing a directory -/

section
variable {f : Node → Node} {segments : List String} {root found : Node}

theorem child?_modifyNamed (name : String) (g : Node → Node) (node : Node) :
    (node.mapEntries (modifyNamed name g)).child? name = (node.child? name).map g := by
  cases node with
  | file => rfl
  | directory => exact lookup_modifyNamed name g _

theorem name_modifyAt (h : root.directoryAt? segments = some found)
    (hname : (f found).name = found.name) : (root.modifyAt f segments).name = root.name := by
  cases segments with
  | nil => cases h; exact hname
  | cons segment rest => exact name_mapEntries _ root

theorem isDirectory_modifyAt (h : root.directoryAt? segments = some found)
    (hroot : root.isDirectory) (hf : (f found).isDirectory) :
    (root.modifyAt f segments).isDirectory := by
  cases segments with
  | nil => cases h; exact hf
  | cons segment rest => simpa [modifyAt] using hroot

/-- The replaced directory is found where the old one was. -/
theorem directoryAt?_modifyAt (h : root.directoryAt? segments = some found)
    (hf : (f found).isDirectory) :
    (root.modifyAt f segments).directoryAt? segments = some (f found) := by
  induction segments generalizing root with
  | nil => cases h; rfl
  | cons segment rest ih =>
    rw [directoryAt?_cons, Option.bind_eq_some_iff] at h ⊢
    obtain ⟨next, hnext, h⟩ := h
    obtain ⟨hchild, hdir⟩ := subdirectory?_eq_some.1 hnext
    refine ⟨next.modifyAt f rest, subdirectory?_eq_some.2 ⟨?_, ?_⟩, ih h⟩
    · rw [modifyAt, child?_modifyNamed, hchild]; rfl
    · exact isDirectory_modifyAt h hdir hf

/-- A directory of a sound tree can be replaced by one of the same name that is as sound. -/
theorem Sound.modifyAt (h : Sound ok levels root) (hfound : root.directoryAt? segments = some found)
    (hname : (f found).name = found.name)
    (hf : ∀ below, levels = below + segments.length → Sound ok below found →
      Sound ok below (f found)) :
    Sound ok levels (root.modifyAt f segments) := by
  induction segments generalizing levels root with
  | nil => cases hfound; exact hf levels rfl h
  | cons segment rest ih =>
    rw [directoryAt?_cons, Option.bind_eq_some_iff] at hfound
    obtain ⟨next, hnext, hfound⟩ := hfound
    have hchild := (subdirectory?_eq_some.1 hnext).1
    cases h with
    | file => simp [Node.child?, entries] at hchild
    | @directory levels name attributes children ht hfiled hall =>
      have hlookup : children.lookup segment = some next := hchild
      refine .directory ht (hfiled.modifyNamed fun node hnode => ?_) fun e he => ?_
      · cases hlookup.symm.trans hnode
        exact name_modifyAt hfound hname
      · rcases mem_modifyNamed he with he | ⟨node, hnode, rfl⟩
        · exact hall e he
        · cases hlookup.symm.trans hnode
          refine ih (hall _ (mem_of_lookup hlookup)) hfound fun below hbelow => hf below ?_
          rw [hbelow, List.length_cons, Nat.add_assoc]

end

end

end Node

end PocketShell
