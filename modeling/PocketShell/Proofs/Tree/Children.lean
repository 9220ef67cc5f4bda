import PocketShell.Proofs.Tree.Locality

/-!
# The children of a directory

A directory that files its entries under their own names is the list of its children. Where no two
of them have a name in common, a name leads to the one child that bears it, and what is changed or
taken away under the name is that child, at its place.
-/

namespace PocketShell.Node

variable {children before after : List Node} {node : Node} {name : String}

@[simp] theorem byName_append (before after : List Node) :
    byName (before ++ after) = byName before ++ byName after := by
  simp [byName]

@[simp] theorem byName_cons (node : Node) (rest : List Node) :
    byName (node :: rest) = (node.name, node) :: byName rest := rfl

@[simp] theorem map_fst_byName (children : List Node) :
    (byName children).map (·.1) = children.map Node.name := by
  simp [byName, Function.comp_def]

@[simp] theorem map_snd_byName (children : List Node) : (byName children).map (·.2) = children := by
  simp [byName, Function.comp_def]

theorem Filed.byName_children (h : Filed node.entries) : byName node.children = node.entries := by
  have hself : ∀ e ∈ node.entries, (e.2.name, e.2) = e := fun e he => by rw [← h.key_eq e he]
  rw [byName, Node.children, List.map_map]
  exact (List.map_congr_left hself).trans (List.map_id _)

theorem lookup_byName_eq_none :
    (byName children).lookup name = none ↔ ∀ node ∈ children, node.name ≠ name := by
  rw [← Option.not_isSome_iff_eq_none, lookup_isSome_iff_mem_keys]
  simp [byName]

theorem childFile?_eq_some {file : Node} :
    node.childFile? name = some file ↔ node.child? name = some file ∧ ¬file.isDirectory := by
  simp [childFile?, Option.filter_eq_some_iff]

/-! ## One child among others -/

/-- A name is new, or one of the children bears it. -/
theorem new_or_split (children : List Node) (name : String) :
    (∀ node ∈ children, node.name ≠ name) ∨
      ∃ before node after, children = before ++ node :: after ∧ node.name = name := by
  by_cases h : ∃ node ∈ children, node.name = name
  · obtain ⟨node, hnode, hname⟩ := h
    obtain ⟨before, after, rfl⟩ := List.append_of_mem hnode
    exact .inr ⟨before, node, after, rfl, hname⟩
  · exact .inl fun node hnode hname => h ⟨node, hnode, hname⟩

section
variable (hnodup : ((before ++ node :: after).map Node.name).Nodup)
include hnodup

theorem name_ne_of_mem_before : ∀ other ∈ before, other.name ≠ node.name := by
  intro other hother heq
  rw [List.map_append, List.nodup_append] at hnodup
  exact hnodup.2.2 _ (List.mem_map_of_mem hother) _ (by simp) heq

theorem lookup_byName_split : (byName (before ++ node :: after)).lookup node.name = some node := by
  have hbefore := lookup_byName_eq_none.2 (name_ne_of_mem_before hnodup)
  simp [List.lookup_append, hbefore]

theorem modifyNamed_byName_split {f : Node → Node} (hf : (f node).name = node.name) :
    modifyNamed node.name f (byName (before ++ node :: after)) =
      byName (before ++ f node :: after) := by
  have hbefore := name_ne_of_mem_before hnodup
  clear hnodup
  induction before with
  | nil => simp [modifyNamed, hf]
  | cons first rest ih =>
    obtain ⟨hfirst, hrest⟩ := List.forall_mem_cons.1 hbefore
    rw [List.cons_append, byName_cons, modifyNamed, if_neg hfirst, ih hrest]
    rfl

theorem eraseP_byName_split : (byName (before ++ node :: after)).eraseP (·.1 == node.name) =
    byName (before ++ after) := by
  have hbefore : ∀ e ∈ byName before, ¬(e.1 == node.name) := by
    simpa [byName] using name_ne_of_mem_before hnodup
  rw [byName_append, List.eraseP_append_right _ hbefore]
  simp

end

end PocketShell.Node
