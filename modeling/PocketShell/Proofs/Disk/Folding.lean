import PocketShell.Filesystem
import PocketShell.Proofs.Disk.Walk

/-!
# Folded paths

Before a path of the disk is shown, its steps are folded away: its components are gone through with
a stack, from which `..` takes away a name. The shell's tree resolves the segments of a path with a
stack of its own. Both find the same parts in every path, however many slashes and steps it has, and
both stay at the root where `..` would lead above it. So a path that leads to a directory of any
tree is shown as the path of that directory (`folds_of_isAbsolute`).
-/

namespace PocketShell

namespace Disk

open PocketShell.Path (separator)

/-! ## Components and segments -/

theorem ofPart?_of_ne {part : String} (hne : part ≠ "") (hdot : part ≠ ".") (hdots : part ≠ "..") :
    Component.ofPart? part = some (.name part) := by
  simp [Component.ofPart?, hne, hdot, hdots]

theorem filterMap_ofPart?_of_isName {names : List String} (h : ∀ name ∈ names, Path.isName name) :
    names.filterMap Component.ofPart? = names.map .name := by
  rw [← List.filterMap_eq_map]
  refine List.filterMap_congr fun name hname => ?_
  obtain ⟨hne, -, hdot, hdots⟩ := Path.isName_iff.1 (h name hname)
  exact ofPart?_of_ne (mt String.toList_eq_nil_iff.2 hne) hdot hdots

/-- What counts for nothing in a path counts for nothing among its segments. -/
theorem toList_ofPart? {part : List Char} (h : ∀ c ∈ part, (c == separator) = false) :
    (Component.ofPart? (String.ofList part)).toList =
      ((Text.stretches (· == separator) part).map String.ofList).filterMap Component.ofPart? := by
  cases part with
  | nil => rfl
  | cons c rest =>
    rw [Text.stretches_of_forall_not (List.cons_ne_nil c rest) h]
    simp only [List.map_singleton, List.filterMap_cons, List.filterMap_nil]
    cases Component.ofPart? (String.ofList (c :: rest)) <;> rfl

/-- The components behind the start of a path are its segments, up to those that stay in place. -/
theorem componentsOf_eq (text : List Char) :
    componentsOf text = (Path.segments (String.ofList text)).filterMap Component.ofPart? := by
  rw [Path.segments, Text.fields_eq, String.toList_ofList]
  -- a part is what stands before the first slash, and the rest goes on behind that
  fun_induction componentsOf text with
  | case1 => rfl
  | case2 c rest part ih =>
    have hpart : ∀ d ∈ part, (d == separator) = false := fun d hd => by
      simpa using List.mem_takeWhile_imp hd
    rw [ih, toList_ofPart? hpart, ← List.filterMap_append, ← List.map_append]
    exact congrArg (fun parts => (parts.map String.ofList).filterMap Component.ofPart?)
      (Text.stretches_takeWhile (c :: rest)).symm

theorem components_of_isAbsolute {path : String} (h : Path.isAbsolute path) :
    components path = .root :: (Path.segments path).filterMap Component.ofPart? := by
  obtain ⟨rest, hrest⟩ := List.head?_eq_some_iff.1 (beq_iff_eq.1 h)
  have hpath : path = "/" ++ String.ofList rest := by
    rw [← String.ofList_toList (s := path), hrest]
    exact @String.ofList_append [separator] rest
  rw [components, hrest, hpath, Path.segments_slash_append]
  exact congrArg (Component.root :: ·) (componentsOf_eq rest)

/-! ## The two stacks -/

/-- The components of the absolute path with the given names. -/
def rooted (names : List String) : List Component :=
  .root :: names.map .name

theorem rooted_append (names : List String) (name : String) :
    rooted (names ++ [name]) = rooted names ++ [.name name] := by
  rw [rooted, List.map_append, rooted]
  rfl

/-- To go up takes away the last name, and nothing at the root. -/
theorem foldComponent_above (names : List String) :
    foldComponent (rooted names) .above = rooted names.dropLast := by
  rcases names.eq_nil_or_concat with rfl | ⟨names, name, rfl⟩
  · rfl
  · rw [List.concat_eq_append, rooted_append, foldComponent, List.getLast?_concat,
      List.dropLast_concat, List.dropLast_concat]

/-- One segment does the same to both stacks. -/
theorem foldl_ofPart? {segment : String} (h : segment ≠ "") (names : List String) :
    (Component.ofPart? segment).toList.foldl foldComponent (rooted names) =
      rooted (foldStep names segment) := by
  by_cases hdot : segment = "."
  · subst hdot
    rfl
  · by_cases hdots : segment = ".."
    · subst hdots
      exact foldComponent_above names
    · rw [ofPart?_of_ne h hdot hdots, foldStep, if_neg hdot, if_neg hdots, rooted_append]
      rfl

/-- So do all of them, one after another. -/
theorem foldl_filterMap_ofPart? {segments : List String} (h : ∀ segment ∈ segments, segment ≠ "")
    (names : List String) :
    (segments.filterMap Component.ofPart?).foldl foldComponent (rooted names) =
      rooted (along names segments) := by
  induction segments generalizing names with
  | nil => rfl
  | cons segment rest ih =>
    obtain ⟨hsegment, hrest⟩ := List.forall_mem_cons.1 h
    have hsplit : (segment :: rest).filterMap Component.ofPart? =
        (Component.ofPart? segment).toList ++ rest.filterMap Component.ofPart? := by
      rw [List.filterMap_cons]
      cases Component.ofPart? segment <;> rfl
    rw [hsplit, List.foldl_append, foldl_ofPart? hsegment, ih hrest, along_cons]

/-- A folded path has the names that its segments lead along from the root. -/
theorem folded_of_isAbsolute {path : String} (h : Path.isAbsolute path) :
    folded path = rooted (along [] (Path.segments path)) := by
  have hne : ∀ segment ∈ Path.segments path, segment ≠ "" := fun segment hsegment =>
    mt String.toList_eq_nil_iff.2 (Path.of_mem_segments hsegment).1
  rw [folded, components_of_isAbsolute h, List.foldl_cons]
  exact foldl_filterMap_ofPart? hne []

/-! ## What is left -/

/-- Whatever the segments are, only names are left of them. -/
theorem isName_along {segments names : List String}
    (h : ∀ segment ∈ segments, segment.toList ≠ [] ∧ separator ∉ segment.toList)
    (hnames : ∀ name ∈ names, Path.isName name) :
    ∀ name ∈ along names segments, Path.isName name := by
  induction segments generalizing names with
  | nil => exact hnames
  | cons segment rest ih =>
    obtain ⟨⟨hne, hslash⟩, hrest⟩ := List.forall_mem_cons.1 h
    refine ih hrest fun name hname => ?_
    rw [foldStep] at hname
    split at hname
    · exact hnames name hname
    · rename_i hdot
      split at hname
      · exact hnames name (List.dropLast_subset names hname)
      · rename_i hdots
        rcases List.mem_append.1 hname with hname | hname
        · exact hnames name hname
        · rw [List.mem_singleton.1 hname]
          exact Path.isName_iff.2 ⟨hne, hslash, hdot, hdots⟩

/-- Names are no steps, so they lead along themselves. -/
theorem along_of_isName {names : List String} (h : ∀ name ∈ names, Path.isName name)
    (here : Place) : along here names = here ++ names := by
  induction names generalizing here with
  | nil => exact (List.append_nil here).symm
  | cons name rest ih =>
    obtain ⟨hname, hrest⟩ := List.forall_mem_cons.1 h
    rw [along_cons, foldStep_of_isName hname, ih hrest, ← List.append_cons]

/-- A path that does not end with a slash gets one before a name that is joined to it. -/
theorem join_of_getLast? {directory name : String} (hdirectory : directory ≠ "")
    (hlast : directory.toList.getLast? ≠ some separator) (hname : Path.isName name) :
    join directory name = directory ++ "/" ++ name := by
  rw [join, if_neg (by simp [Path.not_isAbsolute_of_isName hname]),
    if_neg (by simp [hdirectory, hlast])]

/-- A name is joined to a path that is written out as it is written out behind it. -/
theorem join_render {names : List String} (h : ∀ name ∈ names, Path.isName name) {name : String}
    (hname : Path.isName name) : join (Path.render names) name = Path.render (names ++ [name]) := by
  rcases names.eq_nil_or_concat with rfl | ⟨earlier, last, rfl⟩
  · rw [join, if_neg (by simp [Path.not_isAbsolute_of_isName hname]), if_pos (by decide)]
    rfl
  · rw [List.concat_eq_append] at h ⊢
    obtain ⟨hne, hslash, -⟩ := Path.isName_iff.1 (h last (by simp))
    obtain ⟨above, habove⟩ := Path.exists_render_append earlier last
    have hends : (Path.render (earlier ++ [last])).toList.getLast? ≠ some separator := by
      rw [habove, String.toList_append, List.getLast?_append_of_ne_nil _ hne]
      exact fun hsome => hslash (List.mem_of_getLast? hsome)
    rw [join_of_getLast? (Path.render_ne_empty _) hends hname,
      @Path.render_append (earlier ++ [last]) (by simp) name]

/-- Names behind the root make the path that is written out from them. -/
theorem ofComponents_rooted {names : List String} (h : ∀ name ∈ names, Path.isName name) :
    ofComponents (rooted names) = Path.render names := by
  induction names using List.reverseRecOn with
  | nil => rfl
  | append_singleton names name ih =>
    have hnames : ∀ other ∈ names, Path.isName other := fun other hother =>
      h other (List.mem_append_left _ hother)
    rw [ofComponents, rooted_append, List.foldl_append, ← ofComponents, ih hnames]
    exact join_render hnames (h name (by simp))

/-! ## Folding and resolving -/

/-- A step of a walk through a tree that goes on does to its stack what folding does. -/
theorem foldStep_of_step? {root : Node} {here next : List String} {segment : String}
    (h : root.step? here segment = some next) : foldStep here segment = next := by
  rw [Node.step?] at h
  rw [foldStep]
  split at h
  · rename_i hdot
    rw [if_pos hdot]
    exact Option.some.inj h
  · rename_i hdot
    split at h
    · rename_i hdots
      rw [if_neg hdot, if_pos hdots]
      exact Option.some.inj h
    · rename_i hdots
      rw [if_neg hdot, if_neg hdots]
      obtain ⟨directory, -, h⟩ := Option.bind_eq_some_iff.1 h
      obtain ⟨found, -, h⟩ := Option.bind_eq_some_iff.1 h
      exact Option.some.inj h

theorem along_of_walk {root : Node} {segments here there : List String}
    (h : segments.foldlM root.step? here = some there) : along here segments = there := by
  induction segments generalizing here with
  | nil => exact Option.some.inj h
  | cons segment rest ih =>
    rw [List.foldlM_cons] at h
    obtain ⟨next, hnext, hrest⟩ := Option.bind_eq_some_iff.1 h
    rw [along_cons, foldStep_of_step? hnext, ih hrest]

/-- What folding comes to for an absolute path. -/
structure Folds (path : String) : Prop where
  /-- Behind the root there are names only: no step and no empty component is left, and the text has
  no other components than those that are left. -/
  plain : ∃ names, (∀ name ∈ names, Path.isName name) ∧ folded path = .root :: names.map .name ∧
    shown path = Path.render names ∧ components (shown path) = .root :: names.map .name
  again : shown (shown path) = shown path
  /-- In every tree in which the path leads to a directory it is shown as the path of that
  directory. -/
  resolved : ∀ (root : Node) (working segments : List String),
    root.resolve? working path = some segments → shown path = Path.render segments

/-- Every absolute path is folded to names behind the root, which are those of the directory that
the shell's tree finds at the path if it finds one. -/
theorem folds_of_isAbsolute {path : String} (h : Path.isAbsolute path) : Folds path := by
  have hnames : ∀ name ∈ along [] (Path.segments path), Path.isName name :=
    isName_along (fun _ => Path.of_mem_segments) (by simp)
  have hshown : shown path = Path.render (along [] (Path.segments path)) := by
    rw [shown, folded_of_isAbsolute h, ofComponents_rooted hnames]
  have hsegments : Path.segments (shown path) = along [] (Path.segments path) := by
    rw [hshown, Path.segments_render hnames]
  have habsolute : Path.isAbsolute (shown path) := by
    rw [hshown]
    exact Path.isAbsolute_render _
  have hagain : along [] (Path.segments (shown path)) = along [] (Path.segments path) := by
    rw [hsegments, along_of_isName hnames, List.nil_append]
  refine ⟨⟨_, hnames, folded_of_isAbsolute h, hshown, ?_⟩, ?_, ?_⟩
  · rw [components_of_isAbsolute habsolute, hsegments, filterMap_ofPart?_of_isName hnames]
  · rw [shown, folded_of_isAbsolute habsolute, hagain, ← folded_of_isAbsolute h, ← shown]
  · intro root working segments hresolve
    -- the path is absolute, so the walk starts at the root as folding does
    rw [Node.resolve?, if_pos h] at hresolve
    rw [hshown, along_of_walk hresolve]

/-- A path that goes above the root, stays in place and comes back is shown as that of the home it
leads a guest to, also from another working directory. -/
theorem folds_of_isAbsolute_guest :
    Path.isAbsolute "/../home//./guest/../guest/" ∧ Folds "/../home//./guest/../guest/" ∧
      (Filesystem.start (.ofNanoseconds 0) "guest").root.resolve? ["tmp"]
        "/../home//./guest/../guest/" = some ["home", "guest"] ∧
      shown "/../home//./guest/../guest/" = "/home/guest" :=
  ⟨by decide, folds_of_isAbsolute (by decide), rfl, by decide +kernel⟩

end Disk

end PocketShell
