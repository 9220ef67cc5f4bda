import PocketShell.Proofs.Disk.Items
import PocketShell.Proofs.Path
import Mathlib.Data.List.Induction

/-!
# Walks along directories

A path is walked from the root through directories. Making the directories of a path adds nothing
but directories, and a second time it adds nothing; then the walk succeeds, and it keeps succeeding
as long as the directories along it stay. Before that, a walk either ends early, where the first of
the directories lacks, or it ends as it does after all of them are made.
-/

namespace PocketShell.Disk

variable {disk after : Disk} {here place : Place} {segment name : String}
  {segments more : List String}

/-! ## Where segments lead -/

/-- One more segment behind those that lead to a place. Above the root there is nothing. -/
def foldStep (folded : List String) (segment : String) : List String :=
  if segment = "." then folded
  else if segment = ".." then folded.dropLast
  else folded ++ [segment]

/-- Where segments lead from a place, if all directories along them are there. -/
def along (here : Place) (segments : List String) : Place :=
  segments.foldl foldStep here

theorem along_cons (here : Place) (segment : String) (segments : List String) :
    along here (segment :: segments) = along (foldStep here segment) segments := rfl

theorem along_append (here : Place) (segments more : List String) :
    along here (segments ++ more) = along (along here segments) more := by
  rw [along, List.foldl_append]
  rfl

theorem foldStep_of_isName (h : Path.isName name) (here : Place) :
    foldStep here name = here ++ [name] := by
  obtain ⟨-, -, hdot, hdots⟩ := Path.isName_iff.1 h
  rw [foldStep, if_neg hdot, if_neg hdots]

/-- To lead somewhere from the root, segments lead through every place above it first. -/
theorem exists_prefix_along (segments : List String) (h : place <+: along [] segments) :
    ∃ part, part <+: segments ∧ along [] part = place := by
  induction segments using List.reverseRecOn with
  | nil => exact ⟨[], List.prefix_refl _, (List.prefix_nil.1 h).symm⟩
  | append_singleton above segment ih =>
    have hearlier : place <+: along [] above →
        ∃ part, part <+: above ++ [segment] ∧ along [] part = place := by
      intro hplace
      obtain ⟨part, hpart, heq⟩ := ih hplace
      exact ⟨part, hpart.trans (List.prefix_append _ _), heq⟩
    have hstep : along [] (above ++ [segment]) = foldStep (along [] above) segment :=
      along_append [] above [segment]
    rw [hstep, foldStep] at h
    split at h
    · exact hearlier h
    split at h
    · exact hearlier (h.trans (List.dropLast_prefix _))
    · rcases List.prefix_concat_iff.1 h with heq | hplace
      · refine ⟨above ++ [segment], List.prefix_refl _, ?_⟩
        rw [hstep, foldStep, if_neg ‹_›, if_neg ‹_›, heq]
      · exact hearlier hplace

/-! ## Steps and walks -/

/-- The names of files and directories may have so many octets. -/
def Bearable (segments : List String) : Prop :=
  ∀ segment ∈ segments, segment.utf8ByteSize ≤ nameLimit

/-- All directories along the segments are there. -/
def Leads (disk : Disk) (here : Place) (segments : List String) : Prop :=
  ∀ part, part <+: segments → disk.item? (along here part) = some .directory

theorem Leads.start (h : disk.Leads here segments) : disk.item? here = some .directory :=
  h [] (List.nil_prefix ..)

theorem leads_nil : disk.Leads here [] ↔ disk.item? here = some .directory := by
  constructor
  · exact Leads.start
  · intro h part hpart
    rw [List.prefix_nil.1 hpart]
    exact h

theorem leads_cons :
    disk.Leads here (segment :: segments) ↔
      disk.item? here = some .directory ∧ disk.Leads (foldStep here segment) segments := by
  constructor
  · intro h
    exact ⟨h.start, fun part hpart => h (segment :: part) (List.cons_prefix_cons.2 ⟨rfl, hpart⟩)⟩
  · rintro ⟨hhere, h⟩ part hpart
    cases part with
    | nil => exact hhere
    | cons first rest =>
      obtain ⟨rfl, hrest⟩ := List.cons_prefix_cons.1 hpart
      exact h rest hrest

theorem follow_of_directory (h : disk.item? here = some .directory) (segment : String) :
    disk.follow here segment =
      if segment.utf8ByteSize ≤ nameLimit then .ok (foldStep here segment)
      else .error .nameTooLong := by
  simp only [follow, h, foldStep]
  by_cases hdot : segment = "."
  · subst hdot
    rw [if_pos rfl, if_pos (by decide), if_pos rfl]
  by_cases hdots : segment = ".."
  · subst hdots
    rw [if_neg hdot, if_pos rfl, if_pos (by decide), if_neg hdot, if_pos rfl]
  · by_cases hlong : nameLimit < segment.utf8ByteSize
    · rw [if_neg hdot, if_neg hdots, if_pos hlong, if_neg (by omega)]
    · rw [if_neg hdot, if_neg hdots, if_neg hlong, if_pos (by omega), if_neg hdot, if_neg hdots]

theorem follow_eq_ok :
    disk.follow here segment = .ok place ↔
      disk.item? here = some .directory ∧ segment.utf8ByteSize ≤ nameLimit ∧
        foldStep here segment = place := by
  by_cases hhere : disk.item? here = some .directory
  · rw [follow_of_directory hhere]
    by_cases hsegment : segment.utf8ByteSize ≤ nameLimit <;> simp [hhere, hsegment]
  · unfold follow
    split <;> simp_all

/-! ## Files -/

/-- What reading a file comes to, given what is in its place. -/
def contentOf : Option Item → Except Fault (List UInt8)
  | none => .error .notFound
  | some .directory => .error .isADirectory
  | some (.file octets) => .ok octets

theorem locate_eq {path : String} (h : '\x00' ∉ path.toList) :
    disk.locate path = (Path.segments path).foldlM disk.follow [] := by
  rw [locate, if_neg (by simpa using h)]

theorem locate_of_nul {path : String} (h : '\x00' ∈ path.toList) :
    disk.locate path = .error .invalid := by
  rw [locate, if_pos (by simpa using h)]

theorem read_of_located {path : String} (h : disk.locate path = .ok place) :
    disk.read path = contentOf (disk.item? place) := by
  rw [read, h]
  simp only [bind, Except.bind]
  cases disk.item? place with
  | none => rfl
  | some item => cases item <;> rfl

theorem read_of_lost {path : String} {fault : Fault} (h : disk.locate path = .error fault) :
    disk.read path = .error fault := by
  rw [read, h]
  rfl

/-- A walk through directories that are all there, and on to one more name. -/
theorem walk_of_leads (h : disk.Leads here segments) (hbear : Bearable segments) (name : String) :
    (segments ++ [name]).foldlM disk.follow here = disk.follow (along here segments) name := by
  induction segments generalizing here with
  | nil =>
    rw [List.nil_append, List.foldlM_cons]
    exact bind_pure _
  | cons segment rest ih =>
    obtain ⟨hhere, hrest⟩ := leads_cons.1 h
    obtain ⟨hsegment, hbearrest⟩ := List.forall_mem_cons.1 hbear
    rw [List.cons_append, List.foldlM_cons, follow_of_directory hhere, if_pos hsegment]
    exact ih hrest hbearrest

/-! ## Making directories -/

/-- The disk has all that another has, and perhaps more directories. -/
def Extends (after disk : Disk) : Prop :=
  ∀ place, after.item? place = disk.item? place ∨
    disk.item? place = none ∧ after.item? place = some .directory

/-- What is there stays, and what lacks is made a directory only where the segments lead. -/
theorem item?_makeAlong (disk : Disk) (here : Place) (segments : List String) (place : Place) :
    (disk.makeAlong here segments).1.item? place = disk.item? place ∨
      disk.item? place = none ∧
        (disk.makeAlong here segments).1.item? place = some .directory ∧
          ∃ part, part <+: segments ∧ along here part = place := by
  fun_induction Disk.makeAlong disk here segments with
  | case1 => exact .inl rfl
  | case2 => exact .inl rfl
  | case3 disk here segment segments next hfollow hitem ih =>
    obtain ⟨-, -, rfl⟩ := follow_eq_ok.1 hfollow
    rcases ih with heq | ⟨hnone, hmade, part, hpart, hplace⟩
    · exact .inl heq
    · exact .inr ⟨hnone, hmade, segment :: part, List.cons_prefix_cons.2 ⟨rfl, hpart⟩, hplace⟩
  | case4 => exact .inl rfl
  | case5 disk here segment segments next hfollow hitem ih =>
    obtain ⟨-, -, rfl⟩ := follow_eq_ok.1 hfollow
    have hnext : foldStep here segment ≠ [] := by
      intro hroot
      simp [hroot, item?] at hitem
    rw [item?_put hnext] at ih
    by_cases hplace : place = foldStep here segment
    · subst hplace
      rw [if_pos rfl] at ih
      refine .inr ⟨hitem, ?_, [segment], ⟨segments, rfl⟩, rfl⟩
      rcases ih with heq | ⟨hnone, -⟩
      · exact heq
      · cases hnone
    · rw [if_neg hplace] at ih
      rcases ih with heq | ⟨hnone, hmade, part, hpart, hthere⟩
      · exact .inl heq
      · exact .inr ⟨hnone, hmade, segment :: part, List.cons_prefix_cons.2 ⟨rfl, hpart⟩, hthere⟩

theorem extends_makeAlong (disk : Disk) (here : Place) (segments : List String) :
    (disk.makeAlong here segments).1.Extends disk := by
  intro place
  exact (item?_makeAlong disk here segments place).imp_right fun ⟨hnone, hmade, _⟩ =>
    ⟨hnone, hmade⟩

/-- With more directories a walk ends as it did, unless it missed one of them. -/
theorem Extends.walk (h : after.Extends disk) (here : Place) (segments : List String) :
    segments.foldlM disk.follow here = .error .notFound ∨
      segments.foldlM disk.follow here = segments.foldlM after.follow here := by
  induction segments generalizing here with
  | nil => exact .inr rfl
  | cons segment rest ih =>
    rw [List.foldlM_cons, List.foldlM_cons]
    rcases h here with heq | ⟨hnone, -⟩
    · have hfollow : after.follow here segment = disk.follow here segment := by
        rw [follow, follow, heq]
      rw [hfollow]
      cases disk.follow here segment with
      | error fault => exact .inr rfl
      | ok next => exact ih next
    · left
      rw [follow, hnone]
      rfl

/-- With more directories a file is read as it was, unless it was not found. -/
theorem Extends.read (h : after.Extends disk) (path : String) :
    disk.read path = .error .notFound ∨ disk.read path = after.read path := by
  by_cases hnul : '\x00' ∈ path.toList
  · right
    rw [read_of_lost (locate_of_nul hnul), read_of_lost (locate_of_nul hnul)]
  · have hwalk := h.walk [] (Path.segments path)
    rw [← locate_eq hnul, ← locate_eq hnul] at hwalk
    rcases hwalk with hlost | heq
    · exact .inl (read_of_lost hlost)
    · cases hlocate : disk.locate path with
      | error fault =>
        right
        rw [read_of_lost hlocate, read_of_lost (heq ▸ hlocate)]
      | ok place =>
        rw [read_of_located hlocate, read_of_located (heq ▸ hlocate)]
        rcases h place with hitem | ⟨hnone, -⟩
        · exact .inr (by rw [hitem])
        · exact .inl (by rw [hnone]; rfl)

theorem directory_makeAlong (h : disk.item? place = some .directory) :
    (disk.makeAlong here segments).1.item? place = some .directory := by
  rcases extends_makeAlong disk here segments place with heq | ⟨hnone, -⟩
  · rw [heq, h]
  · rw [hnone] at h
    cases h

theorem makeAlong_cons (disk : Disk) (here : Place) (segment : String) (segments : List String) :
    disk.makeAlong here (segment :: segments) =
      match disk.follow here segment with
      | .error fault => (disk, .error fault)
      | .ok next =>
        match disk.item? next with
        | some .directory => disk.makeAlong next segments
        | some (.file _) => (disk, .error .alreadyExists)
        | none => (disk.put next .directory).makeAlong next segments := rfl

/-- A step leads on when its directory has been made. -/
theorem makeAlong_of_directory {next : Place} (hfollow : disk.follow here segment = .ok next)
    (hnext : disk.item? next = some .directory) (segments : List String) :
    disk.makeAlong here (segment :: segments) = disk.makeAlong next segments := by
  rw [makeAlong_cons, hfollow]
  simp only [hnext]

/-- What has been walked is walked again after more directories are made. -/
theorem follow_makeAlong {next : Place} (hfollow : disk.follow here segment = .ok next)
    (start : Place) (more : List String) :
    (disk.makeAlong start more).1.follow here segment = .ok next := by
  obtain ⟨hhere, hsegment⟩ := follow_eq_ok.1 hfollow
  exact follow_eq_ok.2 ⟨directory_makeAlong hhere, hsegment⟩

/-- A second time nothing changes. -/
theorem makeAlong_makeAlong :
    (disk.makeAlong here segments).1.makeAlong here segments = disk.makeAlong here segments := by
  fun_induction Disk.makeAlong disk here segments with
  | case1 => rfl
  | case2 disk here segment segments fault hfollow =>
    rw [makeAlong_cons, hfollow]
  | case3 disk here segment segments next hfollow hitem ih =>
    rw [makeAlong_of_directory (follow_makeAlong hfollow _ _) (directory_makeAlong hitem), ih]
  | case4 disk here segment segments next hfollow octets hitem =>
    rw [makeAlong_cons, hfollow]
    simp only [hitem]
  | case5 disk here segment segments next hfollow hitem ih =>
    have hne : next ≠ [] := by
      rintro rfl
      simp [item?] at hitem
    have hput : (disk.put next .directory).item? next = some .directory := by
      rw [item?_put hne, if_pos rfl]
    have hagain : (disk.put next .directory).follow here segment = .ok next := by
      obtain ⟨hhere, hsegment⟩ := follow_eq_ok.1 hfollow
      refine follow_eq_ok.2 ⟨?_, hsegment⟩
      rw [item?_put hne]
      split
      · rfl
      · exact hhere
    rw [makeAlong_of_directory (follow_makeAlong hagain _ _) (directory_makeAlong hput), ih]

/-- Directories are made along one part of the segments and then along the other. -/
theorem makeAlong_append :
    disk.makeAlong here (segments ++ more) =
      match disk.makeAlong here segments with
      | (after, .ok ()) => after.makeAlong (along here segments) more
      | (after, .error fault) => (after, .error fault) := by
  fun_induction Disk.makeAlong disk here segments with
  | case1 => rfl
  | case2 disk here segment segments fault hfollow =>
    rw [List.cons_append, makeAlong_cons, hfollow]
  | case3 disk here segment segments next hfollow hitem ih =>
    rw [List.cons_append, makeAlong_of_directory hfollow hitem, ih, along_cons,
      (follow_eq_ok.1 hfollow).2.2]
  | case4 disk here segment segments next hfollow octets hitem =>
    rw [List.cons_append, makeAlong_cons, hfollow]
    simp only [hitem]
  | case5 disk here segment segments next hfollow hitem ih =>
    rw [List.cons_append, makeAlong_cons, hfollow]
    simp only [hitem]
    rw [ih, along_cons, (follow_eq_ok.1 hfollow).2.2]

/-- Directories that were only made along a first part are made as they would have been at once. -/
theorem makeAlong_of_part {part : List String} (h : part <+: segments) :
    (disk.makeAlong here part).1.makeAlong here segments = disk.makeAlong here segments := by
  obtain ⟨rest, rfl⟩ := h
  rw [makeAlong_append, makeAlong_makeAlong, ← makeAlong_append]

/-- Making directories changes nothing when all of them are there, and only then. -/
theorem makeAlong_eq_self (hhere : disk.item? here = some .directory) :
    disk.makeAlong here segments = (disk, .ok ()) ↔
      Bearable segments ∧ disk.Leads here segments := by
  induction segments generalizing here with
  | nil => simp [makeAlong, Bearable, leads_nil, hhere]
  | cons segment rest ih =>
    have hbear : Bearable (segment :: rest) ↔
        segment.utf8ByteSize ≤ nameLimit ∧ Bearable rest := List.forall_mem_cons
    rw [makeAlong_cons, follow_of_directory hhere, leads_cons, hbear]
    by_cases hsegment : segment.utf8ByteSize ≤ nameLimit
    · rw [if_pos hsegment]
      dsimp only
      cases hitem : disk.item? (foldStep here segment) with
      | none =>
        constructor
        · intro heq
          have hne : foldStep here segment ≠ [] := by
            intro hroot
            simp [hroot, item?] at hitem
          have hput : (disk.put (foldStep here segment) .directory).item?
              (foldStep here segment) = some .directory := by
            rw [item?_put hne, if_pos rfl]
          have hmade : (makeAlong _ (foldStep here segment) rest).1.item? _ = some .directory :=
            directory_makeAlong hput
          simp only [heq] at hmade
          rw [hitem] at hmade
          cases hmade
        · rintro ⟨-, -, hleads⟩
          rw [hleads.start] at hitem
          cases hitem
      | some item =>
        cases item with
        | directory => simp only [ih hitem, hsegment, hhere, true_and]
        | file octets =>
          constructor
          · intro heq
            cases heq
          · rintro ⟨-, -, hleads⟩
            rw [hleads.start] at hitem
            cases hitem
    · rw [if_neg hsegment]
      constructor
      · intro heq
        cases heq
      · rintro ⟨⟨hfits, -⟩, -⟩
        exact absurd hfits hsegment

end PocketShell.Disk
