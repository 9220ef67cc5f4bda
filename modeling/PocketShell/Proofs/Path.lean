import PocketShell.Disk.Path
import PocketShell.Proofs.Words

/-!
# Segments of paths

A slash divides the segments of a path, and a name is its own only segment. So a path that is
joined from a directory and a name has the segments of the directory and then the name, and a path
that is written out from names has those for its segments. Where the text of a path is cut at its
last segment, what stands before has the other segments.
-/

namespace PocketShell

namespace Path

theorem isName_iff {name : String} :
    isName name ↔ name.toList ≠ [] ∧ separator ∉ name.toList ∧ name ≠ "." ∧ name ≠ ".." := by
  simp [isName, and_assoc]

/-- A name stays a name with more characters behind it, as long as there is no slash among them and
more than two of them. -/
theorem isName_append {name suffix : String} (h : isName name)
    (hsuffix : separator ∉ suffix.toList) (hlength : 2 < suffix.length) :
    isName (name ++ suffix) := by
  obtain ⟨hne, hslash, -, -⟩ := isName_iff.1 h
  have hlong : 2 < (name ++ suffix).length := by
    rw [String.length_append]
    omega
  refine isName_iff.2 ⟨?_, ?_, ?_, ?_⟩
  · rw [String.toList_append]
    exact List.append_ne_nil_of_left_ne_nil hne _
  · rw [String.toList_append, List.mem_append]
    rintro (hmem | hmem)
    · exact hslash hmem
    · exact hsuffix hmem
  · intro heq
    rw [heq] at hlong
    exact absurd hlong (by decide)
  · intro heq
    rw [heq] at hlong
    exact absurd hlong (by decide)

/-! ## Segments -/

theorem segments_append_separator (first second : String) :
    segments (first ++ "/" ++ second) = segments first ++ segments second := by
  have hlist : (first ++ "/" ++ second).toList = first.toList ++ '/' :: second.toList := by
    rw [String.toList_append, String.toList_append, List.append_assoc]
    rfl
  rw [segments, segments, segments, Text.fields, hlist, List.splitOnP_append_cons _ _ (by decide),
    List.filter_append, List.map_append]
  rfl

/-- Text without a slash is its own only segment, also if it is a step. -/
theorem segments_of_not_mem {name : String} (hne : name ≠ "") (hslash : separator ∉ name.toList) :
    segments name = [name] := by
  have hother : ∀ c ∈ name.toList, (c == separator) = false := by
    intro c hc
    rw [beq_eq_false_iff_ne]
    rintro rfl
    exact hslash hc
  rw [segments, Text.fields_eq,
    Text.stretches_of_forall_not (mt String.toList_eq_nil_iff.1 hne) hother,
    List.map_singleton, String.ofList_toList]

/-- A segment is not empty and has no slash in it. -/
theorem of_mem_segments {path segment : String} (h : segment ∈ segments path) :
    segment.toList ≠ [] ∧ separator ∉ segment.toList := by
  obtain ⟨hne, hchars⟩ := Text.of_mem_fields h
  exact ⟨hne, fun hslash => by simpa using (hchars separator hslash).2⟩

theorem segments_of_isName {name : String} (h : isName name) : segments name = [name] := by
  obtain ⟨hne, hslash, -⟩ := isName_iff.1 h
  exact segments_of_not_mem (mt String.toList_eq_nil_iff.2 hne) hslash

/-- Slashes at the end of a path are no matter. -/
theorem segments_append_slashes (path : String) {slashes : String}
    (h : ∀ c ∈ slashes.toList, c = separator) : segments (path ++ slashes) = segments path := by
  have hslashes : ∀ c ∈ slashes.toList, (c == separator) = true := by simpa using h
  rw [segments, segments, Text.fields_eq, Text.fields_eq, String.toList_append,
    Text.stretches_append_right _ hslashes]

@[simp] theorem segments_empty : segments "" = [] := rfl

theorem segments_append_slash (path : String) : segments (path ++ "/") = segments path := by
  simpa using segments_append_separator path ""

theorem segments_slash_append (path : String) : segments ("/" ++ path) = segments path := by
  simpa using segments_append_separator "" path

theorem segments_join_of_isName {names : List String} (h : ∀ name ∈ names, isName name) :
    segments (Text.join "/" names) = names := by
  induction names with
  | nil => rfl
  | cons name rest ih =>
    obtain ⟨hname, hrest⟩ := List.forall_mem_cons.1 h
    cases rest with
    | nil => rw [Text.join, String.intercalate_singleton, segments_of_isName hname]
    | cons next rest =>
      rw [Text.join, String.intercalate_cons_cons, segments_append_separator,
        segments_of_isName hname]
      exact congrArg (name :: ·) (ih hrest)

/-- What is written out from names falls into them again. -/
theorem segments_render {names : List String} (h : ∀ name ∈ names, isName name) :
    segments (render names) = names := by
  rw [render, segments_slash_append, segments_join_of_isName h]

/-- One more name is written out behind a slash. -/
theorem render_append {names : List String} (h : names ≠ []) (name : String) :
    render (names ++ [name]) = render names ++ "/" ++ name := by
  rw [render, Text.join, String.intercalate_append_of_ne_nil h (List.cons_ne_nil name []),
    String.intercalate_singleton, ← String.append_assoc, ← String.append_assoc]
  rfl

/-- The last name ends what is written out. -/
theorem exists_render_append (names : List String) (name : String) :
    ∃ above, render (names ++ [name]) = above ++ name := by
  by_cases h : names = []
  · exact ⟨"/", by rw [h]; rfl⟩
  · exact ⟨_, render_append h name⟩

/-! ## Where paths start -/

theorem isAbsolute_append {first : String} (h : first ≠ "") (second : String) :
    isAbsolute (first ++ second) = isAbsolute first := by
  obtain ⟨c, rest, hlist⟩ := List.exists_cons_of_ne_nil (mt String.toList_eq_nil_iff.1 h)
  simp [isAbsolute, Text.beginsWith, hlist]

theorem not_isAbsolute_of_not_mem {path : String} (h : separator ∉ path.toList) :
    isAbsolute path = false := by
  rw [isAbsolute, Text.beginsWith, beq_eq_false_iff_ne]
  intro hhead
  exact h (List.mem_of_mem_head? hhead)

theorem not_isAbsolute_of_isName {name : String} (h : isName name) : isAbsolute name = false :=
  not_isAbsolute_of_not_mem (isName_iff.1 h).2.1

theorem isAbsolute_render (names : List String) : isAbsolute (render names) := by
  rw [render, isAbsolute_append (by decide)]
  decide

theorem render_ne_empty (names : List String) : render names ≠ "" := fun hempty => by
  have habsolute := isAbsolute_render names
  rw [hempty] at habsolute
  exact absurd habsolute (by decide)

/-! ## The last segment -/

/-- What is left of a list without a longest tail is nothing, or ends just before the tail could. -/
theorem rdropWhile_cases {α : Type} (p : α → Bool) (xs : List α) :
    xs.rdropWhile p = [] ∨ ∃ above last, xs.rdropWhile p = above ++ [last] ∧ ¬p last := by
  rcases (xs.rdropWhile p).eq_nil_or_concat with hnil | ⟨above, last, hconcat⟩
  · exact .inl hnil
  · rw [List.concat_eq_append] at hconcat
    have hlast := List.rdropWhile_last_not p xs (by simp [hconcat])
    simp only [hconcat, List.getLast_append_singleton] at hlast
    exact .inr ⟨above, last, hconcat, hlast⟩

/-- A path is slashes only, or else it has a last segment: what stands before that is nothing or
ends with a slash, and behind it there are slashes only. -/
theorem splitLast?_cases (path : String) :
    (splitLast? path = none ∧ ∀ c ∈ path.toList, c = separator) ∨
      ∃ parent name slashes, splitLast? path = some (parent, name) ∧
        path = parent ++ name ++ slashes ∧ (parent = "" ∨ ∃ above, parent = above ++ "/") ∧
        name ≠ "" ∧ separator ∉ name.toList ∧ ∀ c ∈ slashes.toList, c = separator := by
  -- the path without the slashes at its end
  let trimmed := path.toList.rdropWhile (· == separator)
  have hsplit : splitLast? path =
      if (trimmed.rtakeWhile (· != separator)).isEmpty then none
      else some (String.ofList (trimmed.rdropWhile (· != separator)),
        String.ofList (trimmed.rtakeWhile (· != separator))) := by
    simp [splitLast?, trimmed, List.rdropWhile, List.rtakeWhile]
  rcases rdropWhile_cases (· == separator) path.toList with
    htrimmed | ⟨start, last, htrimmed, hlast⟩
  · have hall : ∀ c ∈ path.toList, c = separator := by
      simpa using (List.rdropWhile_eq_nil_iff ..).1 htrimmed
    exact .inl ⟨by simp [hsplit, trimmed, htrimmed], hall⟩
  · have hname : trimmed.rtakeWhile (· != separator) ≠ [] := by
      simp only [trimmed, htrimmed]
      rw [List.rtakeWhile_concat_pos _ _ _ (by simpa using hlast)]
      simp
    refine .inr ⟨_, _, String.ofList (path.toList.rtakeWhile (· == separator)),
      by rw [hsplit, if_neg (by simpa using hname)], ?_, ?_, by simpa using hname, ?_, ?_⟩
    · rw [← String.toList_inj]
      simp only [String.toList_append, String.toList_ofList]
      rw [List.rdropWhile_append_rtakeWhile, List.rdropWhile_append_rtakeWhile]
    · rcases rdropWhile_cases (· != separator) trimmed with hparent | ⟨above, c, hparent, hc⟩
      · exact .inl (by rw [hparent])
      · obtain rfl : c = separator := by simpa using hc
        exact .inr ⟨String.ofList above, by rw [hparent, String.ofList_append]; rfl⟩
    · rw [String.toList_ofList]
      intro hmem
      simpa using List.mem_rtakeWhile_imp hmem
    · rw [String.toList_ofList]
      intro c hc
      simpa using List.mem_rtakeWhile_imp hc

/-- The last segment stands behind those of the rest, which starts where the path does. -/
theorem of_splitLast?_eq_some {path parent name : String}
    (h : splitLast? path = some (parent, name)) :
    segments path = segments parent ++ [name] ∧ isAbsolute parent = isAbsolute path := by
  rcases splitLast?_cases path with ⟨hnone, -⟩ |
    ⟨before, last, slashes, hsome, hpath, hbefore, hne, hslash, hslashes⟩
  · rw [hnone] at h
    cases h
  · rw [hsome] at h
    cases h
    rw [hpath, segments_append_slashes _ hslashes, String.append_assoc]
    rcases hbefore with rfl | ⟨above, rfl⟩
    · rw [String.empty_append, String.empty_append, segments_of_not_mem hne hslash,
        isAbsolute_append hne, not_isAbsolute_of_not_mem hslash]
      exact ⟨rfl, rfl⟩
    · have hsome : above ++ "/" ≠ "" := fun hempty => by
        simpa using congrArg String.toList hempty
      rw [segments_append_separator, segments_of_not_mem hne hslash, segments_append_slash,
        isAbsolute_append hsome]
      exact ⟨rfl, rfl⟩

theorem splitLast?_eq_none {path : String} (h : splitLast? path = none) : segments path = [] := by
  rcases splitLast?_cases path with ⟨-, hall⟩ | ⟨before, last, slashes, hsome, -⟩
  · simpa using segments_append_slashes "" hall
  · rw [hsome] at h
    cases h

end Path

namespace Disk

/-- The ways in which a directory and a name are joined. -/
theorem join_cases {name : String} (h : Path.isName name) (directory : String) :
    (directory = "" ∧ join directory name = name) ∨
      (∃ above, directory = above ++ "/" ∧ join directory name = above ++ "/" ++ name) ∨
      join directory name = directory ++ "/" ++ name := by
  rw [join, if_neg (by simp [Path.not_isAbsolute_of_isName h])]
  split
  · rename_i hends
    rcases Bool.or_eq_true_iff.1 hends with hempty | hlast
    · left
      have hdirectory : directory = "" := by simpa using hempty
      rw [hdirectory, String.empty_append]
      exact ⟨rfl, rfl⟩
    · right; left
      obtain ⟨above, habove⟩ := List.getLast?_eq_some_iff.1 (beq_iff_eq.1 hlast)
      have hdirectory : directory = String.ofList above ++ "/" := by
        rw [← String.toList_inj, habove, String.toList_append, String.toList_ofList]
        rfl
      exact ⟨String.ofList above, hdirectory, by rw [hdirectory]⟩
  · exact .inr (.inr rfl)

theorem segments_join {name : String} (h : Path.isName name) (directory : String) :
    Path.segments (join directory name) = Path.segments directory ++ [name] := by
  rcases join_cases h directory with ⟨rfl, hjoin⟩ | ⟨above, rfl, hjoin⟩ | hjoin
  · rw [hjoin, Path.segments_of_isName h]
    rfl
  · rw [hjoin, Path.segments_append_separator, Path.segments_of_isName h,
      Path.segments_append_slash]
  · rw [hjoin, Path.segments_append_separator, Path.segments_of_isName h]

/-- A character other than the slash stands in a joined path when it stands in one of its parts. -/
theorem mem_join {name : String} (h : Path.isName name) (directory : String) {c : Char}
    (hc : c ≠ '/') :
    c ∈ (join directory name).toList ↔ c ∈ directory.toList ∨ c ∈ name.toList := by
  rcases join_cases h directory with ⟨rfl, hjoin⟩ | ⟨above, rfl, hjoin⟩ | hjoin
  · rw [hjoin]
    simp
  · rw [hjoin]
    simp [String.toList_append, or_assoc]
  · rw [hjoin]
    simp [String.toList_append, hc]

end Disk

end PocketShell
