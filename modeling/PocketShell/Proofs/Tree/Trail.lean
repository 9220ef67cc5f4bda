import PocketShell.Proofs.Tree.Nodes
import PocketShell.Proofs.Tree.Walk

/-!
# Walks in one pass

A walk needs no look from the root if it remembers the directories that it stands in: to go up is to
forget the innermost of them, and to enter a directory is to look into the innermost one. Resolving
a path, which looks up from the root whatever it enters, comes to the same places as such a walk and
fails where that fails.
-/

namespace PocketShell.Node

/-- The directories below the root that a walk stands in, the innermost first, each behind the name
under which it was entered. -/
abbrev Trail : Type :=
  List (String × Node)

namespace Trail

/-- The innermost directory. -/
def top (root : Node) : Trail → Node
  | [] => root
  | (_, innermost) :: _ => innermost

/-- The names under which the directories were entered, from the root. -/
def path (trail : Trail) : List String :=
  (trail.map Prod.fst).reverse

/-- Enters a directory of the innermost one. -/
def enter? (root : Node) (trail : Trail) (name : String) : Option Trail :=
  ((top root trail).subdirectory? name).map fun directory => (name, directory) :: trail

/-- One step: `.` stays, `..` goes up unless the walk is at the root, and a name is entered. -/
def advance? (root : Node) (trail : Trail) (segment : String) : Option Trail :=
  if segment = "." then some trail
  else if segment = ".." then some trail.tail
  else enter? root trail segment

/-- One step for each segment. -/
def walk? (root : Node) (trail : Trail) (segments : List String) : Option Trail :=
  segments.foldlM (advance? root) trail

/-- Where a walk along a path starts: at the root if the path starts with a slash, and else in the
working directory, which is entered from the root name by name. -/
def start? (root : Node) (working : List String) (path : String) : Option Trail :=
  if Path.isAbsolute path then some [] else working.foldlM (enter? root) []

/-- Where a walk along a path stands after some segments. -/
def reached? (root : Node) (working : List String) (path : String) (segments : List String) :
    Option Trail :=
  (start? root working path).bind (walk? root · segments)

/-- Each directory of the trail is found in the one that it was entered from. -/
inductive Stands (root : Node) : Trail → Prop
  | root : Stands root []
  | entered {trail : Trail} {name : String} {directory : Node} (h : Stands root trail)
    (hfound : (top root trail).subdirectory? name = some directory) :
    Stands root ((name, directory) :: trail)

variable {root : Node} {trail next : Trail} {name segment : String} {segments : List String}

/-! ## Trails and paths -/

@[simp] theorem path_nil : path [] = [] := rfl

@[simp] theorem path_cons (name : String) (directory : Node) (trail : Trail) :
    path ((name, directory) :: trail) = path trail ++ [name] := by
  simp [path]

theorem path_tail (trail : Trail) : path trail.tail = (path trail).dropLast := by
  cases trail with
  | nil => rfl
  | cons last above => rw [path_cons, List.dropLast_concat, List.tail_cons]

theorem walk?_cons (root : Node) (trail : Trail) (segment : String) (rest : List String) :
    walk? root trail (segment :: rest) =
      (advance? root trail segment).bind (walk? root · rest) := by
  rw [walk?, List.foldlM_cons]
  rfl

theorem enter?_eq_some : enter? root trail name = some next ↔
    ∃ directory, (top root trail).subdirectory? name = some directory ∧
      (name, directory) :: trail = next := by
  rw [enter?, Option.map_eq_some_iff]

theorem advance?_of_name (hdot : segment ≠ ".") (hdots : segment ≠ "..") (trail : Trail) :
    advance? root trail segment = enter? root trail segment := by
  rw [advance?, if_neg hdot, if_neg hdots]

namespace Stands

/-- Looking from the root finds the innermost directory. -/
theorem directoryAt? (h : Stands root trail) :
    root.directoryAt? (path trail) = some (top root trail) := by
  induction h with
  | root => rfl
  | entered h hfound ih =>
    rw [path_cons, directoryAt?_append, ih, Option.bind_some, directoryAt?_cons, hfound]
    rfl

theorem liesAt (h : Stands root trail) : root.LiesAt trail.length (top root trail) := by
  induction h with
  | root => exact .root
  | entered h hfound ih => exact ih.entry (mem_of_lookup (subdirectory?_eq_some.1 hfound).1)

theorem named (hroot : root.Tidy) (h : Stands root trail) :
    ∀ name ∈ path trail, Path.isName name := by
  induction h with
  | root => simp
  | @entered trail name directory h hfound ih =>
    have hmem := mem_of_lookup (subdirectory?_eq_some.1 hfound).1
    have hname := (hroot.filed _ _ h.liesAt).named _ hmem
    rw [path_cons]
    exact List.forall_mem_append.2 ⟨ih, List.forall_mem_singleton.2 hname⟩

theorem tail (h : Stands root trail) : Stands root trail.tail := by
  cases h with
  | root => exact .root
  | entered h hfound => exact h

theorem enter (h : Stands root trail) (henter : enter? root trail name = some next) :
    Stands root next := by
  obtain ⟨directory, hfound, rfl⟩ := enter?_eq_some.1 henter
  exact h.entered hfound

theorem advance (h : Stands root trail) (hstep : advance? root trail segment = some next) :
    Stands root next := by
  unfold advance? at hstep
  split at hstep
  · cases hstep
    exact h
  · split at hstep
    · cases hstep
      exact h.tail
    · exact h.enter hstep

/-- A step that looks up from the root and one from the innermost directory lead to the same
place. -/
theorem step?_eq (h : Stands root trail) (segment : String) :
    root.step? (path trail) segment = (advance? root trail segment).map path := by
  unfold step? advance?
  split
  · rfl
  · split
    · rw [Option.map_some, path_tail]
    · rw [h.directoryAt?, enter?]
      cases hfound : (top root trail).subdirectory? segment with
      | none => simp [hfound]
      | some directory => simp [hfound]

/-- So do any number of steps. -/
theorem foldlM_step? (h : Stands root trail) (segments : List String) :
    segments.foldlM root.step? (path trail) = (walk? root trail segments).map path := by
  induction segments generalizing trail with
  | nil => rfl
  | cons segment rest ih =>
    rw [List.foldlM_cons, h.step?_eq, walk?_cons]
    cases hstep : advance? root trail segment with
    | none => rfl
    | some next => exact ih (h.advance hstep)

theorem walk (h : Stands root trail) (hwalk : walk? root trail segments = some next) :
    Stands root next := by
  induction segments generalizing trail with
  | nil =>
    cases hwalk
    exact h
  | cons segment rest ih =>
    rw [walk?_cons, Option.bind_eq_some_iff] at hwalk
    obtain ⟨there, hstep, hrest⟩ := hwalk
    exact ih (h.advance hstep) hrest

/-- Names that lead from the innermost directory to another can be entered one by one. -/
theorem exists_enter (h : Stands root trail) {names : List String} {directory : Node}
    (hfound : (top root trail).directoryAt? names = some directory) :
    ∃ last, names.foldlM (enter? root) trail = some last ∧ Stands root last ∧
      path last = path trail ++ names := by
  induction names generalizing trail with
  | nil => exact ⟨trail, rfl, h, by rw [List.append_nil]⟩
  | cons name rest ih =>
    rw [directoryAt?_cons, Option.bind_eq_some_iff] at hfound
    obtain ⟨below, hbelow, hfound⟩ := hfound
    obtain ⟨last, hlast, hstands, hpath⟩ := ih (h.entered hbelow) hfound
    have henter : enter? root trail name = some ((name, below) :: trail) :=
      enter?_eq_some.2 ⟨below, hbelow, rfl⟩
    refine ⟨last, ?_, hstands, ?_⟩
    · rw [List.foldlM_cons, henter]
      exact hlast
    · rw [hpath, path_cons, List.append_assoc, List.singleton_append]

end Stands

/-! ## Walks along a path -/

section
variable {working : List String}

theorem exists_start (h : root.HasDirectory working) (path : String) :
    ∃ trail, start? root working path = some trail ∧ Stands root trail ∧
      trail.path = if Path.isAbsolute path then [] else working := by
  rw [start?]
  split
  · exact ⟨[], rfl, .root, rfl⟩
  · obtain ⟨directory, hdirectory⟩ := h
    exact Stands.root.exists_enter hdirectory

/-- After each segment the two walks are at the same place. -/
theorem foldlM_step?_reached (h : root.HasDirectory working) (path : String)
    (segments : List String) :
    segments.foldlM root.step? (if Path.isAbsolute path then [] else working) =
      (reached? root working path segments).map Trail.path := by
  obtain ⟨trail, hstart, hstands, hpath⟩ := exists_start h path
  rw [← hpath, hstands.foldlM_step?, reached?, hstart, Option.bind_some]

theorem stands_of_reached (h : root.HasDirectory working) {path : String}
    (hreached : reached? root working path segments = some trail) : Stands root trail := by
  obtain ⟨first, hstart, hstands, -⟩ := exists_start h path
  rw [reached?, hstart, Option.bind_some] at hreached
  exact hstands.walk hreached

end

/-! ## What a walk has to find -/

/-- Every name among the segments is that of a directory in the one in which the walk stands when it
comes to the name. -/
def HopsExist (root : Node) (trail : Trail) (segments : List String) : Prop :=
  ∀ before name after last, segments = before ++ name :: after → name ≠ "." → name ≠ ".." →
    walk? root trail before = some last →
      ∃ directory, (top root last).subdirectory? name = some directory

theorem HopsExist.cons (hfirst : segment ≠ "." → segment ≠ ".." →
      ∃ directory, (top root trail).subdirectory? segment = some directory)
    (hrest : ∀ next, advance? root trail segment = some next → HopsExist root next segments) :
    HopsExist root trail (segment :: segments) := by
  intro before name after last hsplit hdot hdots hwalk
  cases before with
  | nil =>
    cases hwalk
    cases hsplit
    exact hfirst hdot hdots
  | cons first before =>
    cases hsplit
    rw [walk?_cons, Option.bind_eq_some_iff] at hwalk
    obtain ⟨next, hnext, hwalk⟩ := hwalk
    exact hrest next hnext before name after last rfl hdot hdots hwalk

theorem HopsExist.tail (h : HopsExist root trail (segment :: segments))
    (hstep : advance? root trail segment = some next) : HopsExist root next segments := by
  intro before name after last hsplit hdot hdots hwalk
  refine h (segment :: before) name after last (by rw [hsplit]; rfl) hdot hdots ?_
  rw [walk?_cons, hstep, Option.bind_some, hwalk]

/-- A walk fails only at a name that it does not find. -/
theorem exists_walk_iff : (∃ last, walk? root trail segments = some last) ↔
    HopsExist root trail segments := by
  induction segments generalizing trail with
  | nil =>
    refine iff_of_true ⟨trail, rfl⟩ ?_
    intro before name after last hsplit
    simp at hsplit
  | cons segment rest ih =>
    rw [walk?_cons]
    constructor
    · rintro ⟨last, hwalk⟩
      obtain ⟨next, hstep, hrest⟩ := Option.bind_eq_some_iff.1 hwalk
      refine HopsExist.cons (fun hdot hdots => ?_) fun other hother => ?_
      · rw [advance?_of_name hdot hdots, enter?_eq_some] at hstep
        obtain ⟨directory, hfound, -⟩ := hstep
        exact ⟨directory, hfound⟩
      · cases hstep.symm.trans hother
        exact ih.1 ⟨last, hrest⟩
    · intro hhops
      have hstep : ∃ next, advance? root trail segment = some next := by
        by_cases hdot : segment = "."
        · exact ⟨trail, if_pos hdot⟩
        by_cases hdots : segment = ".."
        · exact ⟨trail.tail, by rw [advance?, if_neg hdot, if_pos hdots]⟩
        obtain ⟨directory, hfound⟩ := hhops [] segment rest trail rfl hdot hdots rfl
        rw [advance?_of_name hdot hdots]
        exact ⟨_, enter?_eq_some.2 ⟨directory, hfound, rfl⟩⟩
      obtain ⟨next, hnext⟩ := hstep
      rw [hnext, Option.bind_some]
      exact ih.2 (hhops.tail hnext)

end Trail

end PocketShell.Node
