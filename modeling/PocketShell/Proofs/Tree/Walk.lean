import PocketShell.Proofs.Tree.Sound

/-!
# Walks lead to directories

Resolving a path keeps to directories of the tree: each step from an existing directory ends at an
existing directory.
-/

namespace PocketShell.Node

variable {root : Node}

/-- A directory of the tree stands at the segments. -/
def HasDirectory (root : Node) (segments : List String) : Prop :=
  ∃ directory, root.directoryAt? segments = some directory

theorem hasDirectory_nil (root : Node) : root.HasDirectory [] := ⟨root, rfl⟩

theorem HasDirectory.dropLast {segments : List String} (h : root.HasDirectory segments) :
    root.HasDirectory segments.dropLast := by
  rcases segments.eq_nil_or_concat with rfl | ⟨above, last, rfl⟩
  · exact h
  · obtain ⟨directory, hdirectory⟩ := h
    rw [List.concat_eq_append, directoryAt?_append, Option.bind_eq_some_iff] at hdirectory
    obtain ⟨parent, hparent, -⟩ := hdirectory
    exact ⟨parent, by simpa using hparent⟩

theorem hasDirectory_of_step? {here next : List String} {segment : String}
    (h : root.HasDirectory here) (hstep : root.step? here segment = some next) :
    root.HasDirectory next := by
  unfold step? at hstep
  split at hstep
  · cases hstep; exact h
  split at hstep
  · cases hstep; exact h.dropLast
  · simp only [bind, pure, Option.bind_eq_some_iff, Option.some.injEq] at hstep
    obtain ⟨directory, hdirectory, found, hfound, rfl⟩ := hstep
    refine ⟨found, ?_⟩
    rw [directoryAt?_append, hdirectory, Option.bind_some, directoryAt?_cons, hfound]
    rfl

theorem hasDirectory_of_walk {here next segments : List String} (h : root.HasDirectory here)
    (hwalk : segments.foldlM root.step? here = some next) : root.HasDirectory next := by
  induction segments generalizing here with
  | nil => cases hwalk; exact h
  | cons segment rest ih =>
    rw [List.foldlM_cons] at hwalk
    obtain ⟨there, hstep, hwalk⟩ := Option.bind_eq_some_iff.1 hwalk
    exact ih (hasDirectory_of_step? h hstep) hwalk

/-- A path seen from a directory of the tree names no other places than directories of the tree. -/
theorem hasDirectory_of_resolve? {working segments : List String} {path : String}
    (h : root.HasDirectory working) (hresolve : root.resolve? working path = some segments) :
    root.HasDirectory segments := by
  unfold resolve? at hresolve
  refine hasDirectory_of_walk ?_ hresolve
  split
  · exact hasDirectory_nil root
  · exact h

end PocketShell.Node
