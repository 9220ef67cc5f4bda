import PocketShell.Proofs.Store.Files
import Mathlib.Data.Fin.VecNotation

/-!
# Calls whose steps interleave

Several saves and loads can be under way at once, and their steps come in any order. What the calls
of a user see and do depends on the two files of this user only, which no call of another user
touches, and on the directory of the store, which all make in the same way. Hence the steps of the
other users can be left out (`run_own_steps`).
-/

namespace PocketShell.Store

open Disk (Bears)

/-! ## Calls -/

/-- A call to the store. -/
inductive Call where
  | save (record : Record)
  | load (user : String)
  deriving DecidableEq, Repr

/-- The user that a call is for. -/
def Call.user : Call → String
  | save record => record.user
  | load user => user

/-- How far a call has got: the step it is at and the ones after it, or what it has come to. -/
inductive Progress where
  | saving (step : Step) (rest : List Step)
  | loading (user : String)
  | saved (result : Except Fault Unit)
  | loaded (result : Except Fault (Option String))
  deriving DecidableEq

/-- A save that has some steps to take. -/
def Progress.ofSteps : List Step → Progress
  | [] => .saved (.ok ())
  | step :: rest => .saving step rest

/-- A call before its first step. One for a name that is refused takes none. -/
def Call.start (store : Store) : Call → Progress
  | save record =>
    match store.stepsFor record with
    | .ok steps => .ofSteps steps
    | .error fault => .saved (.error fault)
  | load user =>
    if Path.isName user then .loading user else .loaded (.error (.invalidUser user))

/-- The disk and the call after its next step. -/
def advance (store : Store) (disk : Disk) : Progress → Disk × Progress
  | .saving step rest =>
    match step.run disk with
    | (after, .ok ()) => (after, .ofSteps rest)
    | (after, .error _) => (after, .saved (.error (.unwritable (Disk.shown step.path))))
  | .loading user => (disk, .loaded (store.snapshotOf user (disk.read (store.file user))))
  | .saved result => (disk, .saved result)
  | .loaded result => (disk, .loaded result)

/-- The files that a step reads, writes, moves or replaces. -/
def Step.files : Step → List String
  | createDirectories _ => []
  | write path _ => [path]
  | rename source target => [source, target]

/-- The files that the next step of a call touches. -/
def Progress.files (store : Store) : Progress → List String
  | saving step _ => step.files
  | loading user => [store.file user]
  | saved _ | loaded _ => []

/-! ## Calls side by side -/

/-- A disk and the calls that share it, each under an identifier of its own. -/
structure System (ι : Type) where
  disk : Disk
  progress : ι → Progress

namespace System

variable {ι : Type} [DecidableEq ι]

/-- Before the first step of any call. -/
def start (store : Store) (disk : Disk) (calls : ι → Call) : System ι :=
  ⟨disk, fun i => (calls i).start store⟩

/-- After the next step of one call. -/
def step (store : Store) (system : System ι) (i : ι) : System ι :=
  let (disk, progress) := advance store system.disk (system.progress i)
  ⟨disk, Function.update system.progress i progress⟩

/-- After some steps, each of the call that is named. -/
def run (store : Store) (system : System ι) (schedule : List ι) : System ι :=
  schedule.foldl (step store) system

/-- What some calls reach from a disk by some of their steps. -/
def reached (store : Store) (disk : Disk) (calls : ι → Call) (schedule : List ι) : System ι :=
  (start store disk calls).run store schedule

variable {store : Store} {system : System ι} {i j : ι}

theorem step_disk :
    (system.step store i).disk = (advance store system.disk (system.progress i)).1 := rfl

theorem step_progress_self :
    (system.step store i).progress i = (advance store system.disk (system.progress i)).2 := by
  simp [step]

theorem step_progress_of_ne (h : j ≠ i) :
    (system.step store i).progress j = system.progress j := by
  simp [step, h]

end System

variable {store : Store} {disk after : Disk} {record : Record} {user other name : String}
  {octets : List UInt8} {call : Call} {progress : Progress}

section Alone

variable {ι : Type} [DecidableEq ι] (store : Store) (disk : Disk) (calls : ι → Call) (i : ι)

/-- A save without a step of another call between its own is the save of the store. -/
theorem run_save_alone (record : Record) (hcall : calls i = .save record) :
    let system := System.reached store disk calls [i, i, i]
    system.disk = (store.save disk record).1 ∧
      system.progress i = .saved (store.save disk record).2 := by
  simp only [System.reached, System.run, List.foldl_cons, List.foldl_nil, System.step_disk,
    System.step_progress_self, System.start, hcall, Call.start, save]
  by_cases huser : Path.isName record.user
  · rw [stepsFor, if_pos huser]
    simp only [saveSteps, Progress.ofSteps, runSteps]
    rcases hmake : (Step.createDirectories store.directory).run disk with ⟨disk₁, _ | _⟩
    · simp [advance, hmake]
    · rcases hwrite : (Step.write (store.partialFile record.user) record.write).run disk₁ with
        ⟨disk₂, _ | _⟩
      · simp [advance, Progress.ofSteps, hmake, hwrite]
      · rcases hmove : (Step.rename (store.partialFile record.user)
          (store.file record.user)).run disk₂ with ⟨disk₃, _ | _⟩ <;>
            simp [advance, Progress.ofSteps, hmake, hwrite, hmove]
  · simp [stepsFor, huser, advance]

/-- A load is the load of the store. -/
theorem run_load_alone (user : String) (hcall : calls i = .load user) :
    let system := System.reached store disk calls [i]
    system.disk = disk ∧ system.progress i = .loaded (store.load disk user) := by
  simp only [System.reached, System.run, List.foldl_cons, List.foldl_nil, System.step_disk,
    System.step_progress_self, System.start, hcall, Call.start, load]
  by_cases huser : Path.isName user <;> simp [huser, advance]

end Alone

/-! ## The next step, case by case -/

theorem advance_making {rest : List Step} :
    advance store disk (.saving (.createDirectories store.directory) rest) =
      (store.made disk,
        match (disk.createDirectories store.directory).2 with
        | .ok () => .ofSteps rest
        | .error _ => .saved (.error (.unwritable (Disk.shown store.directory)))) := by
  rw [advance, Step.run, made]
  rcases disk.createDirectories store.directory with ⟨after, _ | _⟩ <;> rfl

theorem advance_writing {path : String} {rest : List Step} :
    advance store disk (.saving (.write path octets) rest) =
      match disk.write path octets with
      | .ok after => (after, .ofSteps rest)
      | .error _ => (disk, .saved (.error (.unwritable (Disk.shown path)))) := by
  rw [advance, Step.run]
  cases disk.write path octets <;> rfl

theorem advance_moving {source target : String} {rest : List Step} :
    advance store disk (.saving (.rename source target) rest) =
      match disk.rename source target with
      | .ok after => (after, .ofSteps rest)
      | .error _ => (disk, .saved (.error (.unwritable (Disk.shown target)))) := by
  rw [advance, Step.run]
  cases disk.rename source target <;> rfl

/-! ## Where a call can be -/

/-- How far a call can have got on a disk. Once it has made the directory, the directory is there;
and once it has written the partial file, there is no directory in its place. -/
inductive Ready (store : Store) (disk : Disk) : Call → Progress → Prop
  | making {record : Record} : Path.isName record.user →
      Ready store disk (.save record) (.saving (.createDirectories store.directory)
        [.write (store.partialFile record.user) record.write,
          .rename (store.partialFile record.user) (store.file record.user)])
  | writing {record : Record} : Path.isName record.user → store.Made disk →
      Ready store disk (.save record) (.saving (.write (store.partialFile record.user) record.write)
        [.rename (store.partialFile record.user) (store.file record.user)])
  | moving {record : Record} : Path.isName record.user → store.Made disk →
      disk.item? (store.place (partialName record.user)) ≠ some .directory →
        Ready store disk (.save record)
          (.saving (.rename (store.partialFile record.user) (store.file record.user)) [])
  | loading {user : String} : Path.isName user → Ready store disk (.load user) (.loading user)
  | saved {record : Record} (result : Except Fault Unit) :
      Ready store disk (.save record) (.saved result)
  | loaded {user : String} (result : Except Fault (Option String)) :
      Ready store disk (.load user) (.loaded result)

theorem ready_start (store : Store) (disk : Disk) (call : Call) :
    Ready store disk call (call.start store) := by
  cases call with
  | save record =>
    rw [Call.start, stepsFor]
    by_cases hname : Path.isName record.user
    · rw [if_pos hname]
      exact .making hname
    · rw [if_neg hname]
      exact .saved _
  | load user =>
    rw [Call.start]
    by_cases hname : Path.isName user
    · rw [if_pos hname]
      exact .loading hname
    · rw [if_neg hname]
      exact .loaded _

/-- The names of the files of a user. -/
def names (user : String) : List String :=
  [fileName user, partialName user]

theorem fileName_mem_names (user : String) : fileName user ∈ names user := by simp [names]

theorem partialName_mem_names (user : String) : partialName user ∈ names user := by simp [names]

theorem isName_of_mem_names (huser : Path.isName user) (h : name ∈ names user) :
    Path.isName name := by
  simp only [names, List.mem_cons, List.not_mem_nil, or_false] at h
  rcases h with rfl | rfl
  · exact isName_fileName huser
  · exact isName_partialName huser

theorem user_of_mem_names (h : name ∈ names user) (hother : name ∈ names other) :
    user = other := by
  simp only [names, List.mem_cons, List.not_mem_nil, or_false] at h hother
  rcases h with rfl | rfl <;> rcases hother with heq | heq
  · exact fileName_inj.1 heq
  · exact absurd heq (fileName_ne_partialName _ _)
  · exact absurd heq.symm (fileName_ne_partialName _ _)
  · exact partialName_inj.1 heq

/-- A call touches files of its own user only. -/
theorem Ready.files {path : String} (h : Ready store disk call progress)
    (hpath : path ∈ progress.files store) :
    Path.isName call.user ∧
      ∃ name ∈ names call.user, path = Disk.join store.directory name := by
  cases h with
  | making => simp [Progress.files, Step.files] at hpath
  | @writing record huser =>
    simp only [Progress.files, Step.files, List.mem_singleton] at hpath
    exact ⟨huser, _, partialName_mem_names _, hpath⟩
  | @moving record huser =>
    simp only [Progress.files, Step.files, List.mem_cons, List.not_mem_nil, or_false] at hpath
    rcases hpath with rfl | rfl
    · exact ⟨huser, _, partialName_mem_names _, rfl⟩
    · exact ⟨huser, _, fileName_mem_names _, rfl⟩
  | @loading user huser =>
    simp only [Progress.files, List.mem_singleton] at hpath
    exact ⟨huser, _, fileName_mem_names _, hpath⟩
  | saved => simp [Progress.files] at hpath
  | loaded => simp [Progress.files] at hpath

/-! ## What a step changes -/

/-- All that the next step of a call of a user can do to the disk. -/
inductive Change (store : Store) (user : String) (disk : Disk) : Disk → Prop
  | none : Change store user disk disk
  | making : Change store user disk (store.made disk)
  | writing {octets : List UInt8} {after : Disk} : Path.isName user → store.Made disk →
      disk.write (store.partialFile user) octets = .ok after → Change store user disk after
  | moving {after : Disk} : Path.isName user → store.Made disk →
      disk.item? (store.place (partialName user)) ≠ some .directory →
        disk.rename (store.partialFile user) (store.file user) = .ok after →
          Change store user disk after

theorem Ready.change (h : Ready store disk call progress) :
    Change store call.user disk (advance store disk progress).1 := by
  cases h with
  | making =>
    rw [advance_making]
    exact .making
  | @writing record huser hmade =>
    rw [advance_writing]
    cases hwrite : disk.write (store.partialFile record.user) record.write with
    | error fault => exact .none
    | ok after => exact .writing huser hmade hwrite
  | @moving record huser hmade hitem =>
    rw [advance_moving]
    cases hrename : disk.rename (store.partialFile record.user) (store.file record.user) with
    | error fault => exact .none
    | ok after => exact .moving huser hmade hitem hrename
  | loading => exact .none
  | saved => exact .none
  | loaded => exact .none

theorem Change.made (h : Change store user disk after) (hmade : store.Made disk) :
    store.Made after := by
  cases h with
  | none => exact hmade
  | making => rwa [hmade.made_eq]
  | writing huser _ hwrite => exact (hmade.write (isName_partialName huser) hwrite).1
  | moving huser _ hitem hrename => exact (hmade.rename_partial huser hitem hrename).1

/-- No step puts a directory in the place of a partial file. -/
theorem Change.not_directory (h : Change store user disk after) (hmade : store.Made disk)
    (hother : disk.item? (store.place (partialName other)) ≠ some .directory) :
    after.item? (store.place (partialName other)) ≠ some .directory := by
  cases h with
  | none => exact hother
  | making => rwa [hmade.made_eq]
  | writing huser _ hwrite =>
    rw [(hmade.write (isName_partialName huser) hwrite).2]
    split
    · simp
    · exact hother
  | moving huser _ hitem hrename =>
    rw [(hmade.rename_partial huser hitem hrename).2,
      if_neg (fileName_ne_partialName _ _).symm]
    split
    · simp
    · exact hother

/-- A call is where it can be also after a step of another one. -/
theorem Ready.of_change (h : Ready store disk call progress)
    (hchange : Change store user disk after) : Ready store after call progress := by
  cases h with
  | making huser => exact .making huser
  | writing huser hmade => exact .writing huser (hchange.made hmade)
  | moving huser hmade hitem =>
    exact .moving huser (hchange.made hmade) (hchange.not_directory hmade hitem)
  | loading huser => exact .loading huser
  | saved result => exact .saved result
  | loaded result => exact .loaded result

/-- A call is where it can be also after a step of its own. -/
theorem Ready.advance (h : Ready store disk call progress) :
    Ready store (advance store disk progress).1 call (advance store disk progress).2 := by
  cases h with
  | making huser =>
    rw [advance_making]
    cases hmake : (disk.createDirectories store.directory).2 with
    | error fault => exact .saved _
    | ok =>
      have hmade := made_of_createDirectories (Prod.snd_eq_iff.1 hmake)
      exact .writing huser hmade
  | @writing record huser hmade =>
    rw [advance_writing]
    cases hwrite : disk.write (store.partialFile record.user) record.write with
    | error fault => exact .saved _
    | ok after =>
      obtain ⟨hafter, hitems⟩ := hmade.write (isName_partialName huser) hwrite
      refine .moving huser hafter ?_
      rw [hitems, if_pos rfl]
      simp
  | @moving record huser hmade hitem =>
    rw [advance_moving]
    cases hrename : disk.rename (store.partialFile record.user) (store.file record.user) with
    | error fault => exact .saved _
    | ok after => exact .saved _
  | loading => exact .loaded _
  | saved => exact .saved _
  | loaded => exact .loaded _

/-- A call for a name that is refused has no step to take. -/
theorem Ready.idle (h : Ready store disk call progress) (hname : ¬ Path.isName call.user) :
    progress.files store = [] ∧ (Store.advance store disk progress).1 = disk := by
  cases h with
  | making huser => exact absurd huser hname
  | writing huser => exact absurd huser hname
  | moving huser => exact absurd huser hname
  | loading huser => exact absurd huser hname
  | saved => exact ⟨rfl, rfl⟩
  | loaded => exact ⟨rfl, rfl⟩

/-- A step changes nothing but what is in the places of the files that it touches, or below them,
and the directories that it makes, which are that of the store and those that lead to it. -/
theorem Ready.frame (h : Ready store disk call progress) {place : Disk.Place}
    (hplace : ∀ path ∈ progress.files store, ∀ there, disk.locate path = .ok there →
      ¬ there <+: place) :
    (Store.advance store disk progress).1.item? place = disk.item? place ∨
      disk.item? place = none ∧
        (Store.advance store disk progress).1.item? place = some .directory ∧
          ∃ part, part <+: Path.segments store.directory ∧ Disk.along [] part = place := by
  cases h with
  | making =>
    rw [advance_making]
    exact Disk.item?_createDirectories disk store.directory place
  | @writing record huser hmade =>
    have hpartial := isName_partialName huser
    rw [advance_writing]
    cases hwrite : disk.write (store.partialFile record.user) record.write with
    | error fault => exact .inl rfl
    | ok after =>
      obtain ⟨hbears, -, rfl⟩ := (hmade.write_eq_ok hpartial).1 hwrite
      have hnot := hplace (store.partialFile record.user) (by simp [Progress.files, Step.files]) _
        (hmade.locate hpartial hbears)
      refine .inl ?_
      rw [Disk.item?_put (place_ne_nil store _), if_neg]
      rintro rfl
      exact hnot (List.prefix_refl _)
  | @moving record huser hmade hitem =>
    rw [advance_moving]
    cases hrename : disk.rename (store.partialFile record.user) (store.file record.user) with
    | error fault => exact .inl rfl
    | ok after =>
      obtain ⟨hbears, hbears', -, -, rfl⟩ := (hmade.rename_partial_eq_ok huser hitem).1 hrename
      have hsource := hplace (store.partialFile record.user) (by simp [Progress.files, Step.files])
        _ (hmade.locate (isName_partialName huser) hbears)
      have htarget := hplace (store.file record.user) (by simp [Progress.files, Step.files])
        _ (hmade.locate (isName_fileName huser) hbears')
      have hapart := store.apart_place (fileName_ne_partialName record.user record.user).symm
      exact .inl (Disk.item?_replace_of_apart hapart hsource htarget)
  | loading => exact .inl rfl
  | saved => exact .inl rfl
  | loaded => exact .inl rfl

/-! ## What a user sees of a disk -/

/-- Making the directory of the store does not change what reading the file of a user comes to. -/
def Steady (store : Store) (user : String) (disk : Disk) : Prop :=
  store.stored disk user = disk.read (store.file user)

/-- Two disks on which the calls of a user do the same. -/
structure Alike (store : Store) (user : String) (disk other : Disk) : Prop where
  outcome : (disk.createDirectories store.directory).2 =
    (other.createDirectories store.directory).2
  stored : store.stored disk user = store.stored other user
  items : ∀ name ∈ names user, (store.made disk).item? (store.place name) =
    (store.made other).item? (store.place name)

variable {disk₁ disk₂ disk₃ : Disk}

theorem Alike.refl (store : Store) (user : String) (disk : Disk) :
    Alike store user disk disk :=
  ⟨rfl, rfl, fun _ _ => rfl⟩

theorem Alike.symm (h : Alike store user disk₁ disk₂) : Alike store user disk₂ disk₁ :=
  ⟨h.outcome.symm, h.stored.symm, fun name hname => (h.items name hname).symm⟩

theorem Alike.trans (h : Alike store user disk₁ disk₂) (h' : Alike store user disk₂ disk₃) :
    Alike store user disk₁ disk₃ :=
  ⟨h.outcome.trans h'.outcome, h.stored.trans h'.stored,
    fun name hname => (h.items name hname).trans (h'.items name hname)⟩

/-- Where the directory is made, only the items under the names of the user matter. -/
theorem Made.alike (h : store.Made disk₁) (h' : store.Made disk₂) (huser : Path.isName user)
    (hitems : ∀ name ∈ names user,
      disk₁.item? (store.place name) = disk₂.item? (store.place name)) :
    Alike store user disk₁ disk₂ where
  outcome := by rw [h, h']
  stored := h'.stored_congr h huser (hitems _ (fileName_mem_names user))
  items := by rwa [h.made_eq, h'.made_eq]

theorem alike_made : Alike store user (store.made disk) disk where
  outcome := by rw [createDirectories_made]
  stored := stored_of_made_eq made_made user
  items := by
    rw [made_made]
    exact fun _ _ => rfl

/-- To a user, a step of a call of another user changes nothing. -/
theorem Change.alike (h : Change store other disk after) (huser : Path.isName user)
    (hne : user ≠ other) : Alike store user after disk := by
  have hforeign {name : String} (hname : name ∈ names user) : name ∉ names other :=
    fun hmem => hne (user_of_mem_names hname hmem)
  cases h with
  | none => exact .refl ..
  | making => exact alike_made
  | writing hother hmade hwrite =>
    obtain ⟨hafter, hitems⟩ := hmade.write (isName_partialName hother) hwrite
    refine hafter.alike hmade huser fun name hname => ?_
    rw [hitems, if_neg (ne_of_mem_of_not_mem (partialName_mem_names other) (hforeign hname)).symm]
  | moving hother hmade hitem hrename =>
    obtain ⟨hafter, hitems⟩ := hmade.rename_partial hother hitem hrename
    refine hafter.alike hmade huser fun name hname => ?_
    rw [hitems, if_neg (ne_of_mem_of_not_mem (fileName_mem_names other) (hforeign hname)).symm,
      if_neg (ne_of_mem_of_not_mem (partialName_mem_names other) (hforeign hname)).symm]

theorem Change.steady (h : Change store other disk after) (hsteady : Steady store user disk) :
    Steady store user after := by
  cases h with
  | none => exact hsteady
  | making => exact stored_of_made_eq made_made user
  | writing hother hmade hwrite =>
    exact (hmade.write (isName_partialName hother) hwrite).1.stored_eq user
  | moving hother hmade hitem hrename =>
    exact (hmade.rename_partial hother hitem hrename).1.stored_eq user

section Own

variable {other : Disk}

theorem Alike.item?_eq (h : Alike store user disk other) (hmade : store.Made disk)
    (hmade' : store.Made other) (hname : name ∈ names user) :
    disk.item? (store.place name) = other.item? (store.place name) := by
  have hitem := h.items name hname
  rwa [hmade.made_eq, hmade'.made_eq] at hitem

/-- A partial file that can be written on one disk can be on one that is alike to its user. -/
theorem Alike.write (h : Alike store user disk other) (huser : Path.isName user)
    (hmade : store.Made disk) (hmade' : store.Made other)
    (hwrite : disk.write (store.partialFile user) octets = .ok after) :
    ∃ after', other.write (store.partialFile user) octets = .ok after' ∧
      Alike store user after after' := by
  have hpartial := isName_partialName huser
  have hsame := h.item?_eq hmade hmade' (partialName_mem_names user)
  obtain ⟨hbears, hitem, -⟩ := (hmade.write_eq_ok hpartial).1 hwrite
  have hwrite' : other.write (store.partialFile user) octets = .ok _ :=
    (hmade'.write_eq_ok hpartial).2 ⟨hbears, hsame ▸ hitem, rfl⟩
  refine ⟨_, hwrite', ?_⟩
  obtain ⟨hafter, hitems⟩ := hmade.write hpartial hwrite
  obtain ⟨hafter', hitems'⟩ := hmade'.write hpartial hwrite'
  refine hafter.alike hafter' huser fun name hname => ?_
  rw [hitems, hitems', h.item?_eq hmade hmade' hname]

/-- A partial file that can be moved on one disk can be on one that is alike to its user. -/
theorem Alike.move (h : Alike store user disk other) (huser : Path.isName user)
    (hmade : store.Made disk) (hmade' : store.Made other)
    (hitem : disk.item? (store.place (partialName user)) ≠ some .directory)
    (hrename : disk.rename (store.partialFile user) (store.file user) = .ok after) :
    ∃ after', other.rename (store.partialFile user) (store.file user) = .ok after' ∧
      Alike store user after after' := by
  have hsame := h.item?_eq hmade hmade' (partialName_mem_names user)
  have hsame' := h.item?_eq hmade hmade' (fileName_mem_names user)
  have hitem' := hsame ▸ hitem
  obtain ⟨hbears, hbears', hthere, hfree, -⟩ := (hmade.rename_partial_eq_ok huser hitem).1 hrename
  have hrename' := (hmade'.rename_partial_eq_ok huser hitem').2
    ⟨hbears, hbears', hsame ▸ hthere, hsame' ▸ hfree, rfl⟩
  refine ⟨_, hrename', ?_⟩
  obtain ⟨hafter, hitems⟩ := hmade.rename_partial huser hitem hrename
  obtain ⟨hafter', hitems'⟩ := hmade'.rename_partial huser hitem' hrename'
  refine hafter.alike hafter' huser fun name hname => ?_
  rw [hitems, hitems', hsame, h.item?_eq hmade hmade' hname]

/-- When each of two changes succeeds if the other does, both succeed or both fail. -/
theorem Alike.both {result result' : Except Disk.Fault Disk}
    (hthere : ∀ after, result = .ok after →
      ∃ after', result' = .ok after' ∧ Alike store user after after')
    (hback : ∀ after', result' = .ok after' →
      ∃ after, result = .ok after ∧ Alike store user after' after) :
    (∃ after after', result = .ok after ∧ result' = .ok after' ∧ Alike store user after after') ∨
      ∃ fault fault', result = .error fault ∧ result' = .error fault' := by
  cases result with
  | ok after =>
    obtain ⟨after', hafter', halike⟩ := hthere after rfl
    exact .inl ⟨after, after', rfl, hafter', halike⟩
  | error fault =>
    cases result' with
    | error fault' => exact .inr ⟨fault, fault', rfl, rfl⟩
    | ok after' =>
      obtain ⟨after, hafter, -⟩ := hback after' rfl
      cases hafter

/-- The steps of a user's own calls do the same on disks that are alike to the user. -/
theorem Alike.advance (h : Alike store call.user disk other)
    (hready : Ready store disk call progress) (hready' : Ready store other call progress)
    (hsteady : Steady store call.user disk) (hsteady' : Steady store call.user other) :
    (advance store disk progress).2 = (advance store other progress).2 ∧
      Alike store call.user (advance store disk progress).1 (advance store other progress).1 := by
  cases hready with
  | making =>
    rw [advance_making, advance_making, h.outcome]
    exact ⟨rfl, alike_made.trans (h.trans alike_made.symm)⟩
  | @writing record huser hmade =>
    cases hready' with
    | writing _ hmade' =>
      change Alike store record.user disk other at h
      rw [advance_writing, advance_writing]
      rcases Alike.both (fun _ hwrite => h.write huser hmade hmade' hwrite)
        (fun _ hwrite => h.symm.write huser hmade' hmade hwrite) with
        ⟨after, after', hwrite, hwrite', halike⟩ | ⟨fault, fault', hwrite, hwrite'⟩
      · rw [hwrite, hwrite']
        exact ⟨rfl, halike⟩
      · rw [hwrite, hwrite']
        exact ⟨rfl, h⟩
  | @moving record huser hmade hitem =>
    cases hready' with
    | moving _ hmade' hitem' =>
      change Alike store record.user disk other at h
      rw [advance_moving, advance_moving]
      rcases Alike.both (fun _ hmove => h.move huser hmade hmade' hitem hmove)
        (fun _ hmove => h.symm.move huser hmade' hmade hitem' hmove) with
        ⟨after, after', hmove, hmove', halike⟩ | ⟨fault, fault', hmove, hmove'⟩
      · rw [hmove, hmove']
        exact ⟨rfl, halike⟩
      · rw [hmove, hmove']
        exact ⟨rfl, h⟩
  | @loading user huser =>
    have hread : disk.read (store.file user) = other.read (store.file user) :=
      hsteady.symm.trans (h.stored.trans hsteady')
    exact ⟨by rw [Store.advance, Store.advance, hread], h⟩
  | saved => exact ⟨rfl, h⟩
  | loaded => exact ⟨rfl, h⟩

end Own

/-! ## Whole runs -/

section Runs

variable {ι : Type} {calls : ι → Call} {system full own : System ι}

/-- Every call is where it can be. -/
def System.Consistent (store : Store) (calls : ι → Call) (system : System ι) : Prop :=
  ∀ i, Ready store system.disk (calls i) (system.progress i)

theorem System.consistent_start (store : Store) (disk : Disk) (calls : ι → Call) :
    (start store disk calls).Consistent store calls :=
  fun i => ready_start store disk (calls i)

variable [DecidableEq ι]

theorem System.Consistent.step (h : system.Consistent store calls) (i : ι) :
    (system.step store i).Consistent store calls := by
  intro j
  by_cases hsame : j = i
  · rw [step_disk, hsame, step_progress_self]
    exact (h i).advance
  · rw [step_disk, step_progress_of_ne hsame]
    exact (h j).of_change (h i).change

theorem System.Consistent.run (h : system.Consistent store calls) (schedule : List ι) :
    (system.run store schedule).Consistent store calls := by
  induction schedule generalizing system with
  | nil => exact h
  | cons i schedule ih => exact ih (h.step i)

/-- A system in which all steps were taken, and one in which only those of the calls of a user
were. -/
structure Follows (store : Store) (calls : ι → Call) (user : String) (full own : System ι) :
    Prop where
  consistent : full.Consistent store calls
  consistent_own : own.Consistent store calls
  steady : Steady store user full.disk
  steady_own : Steady store user own.disk
  alike : Alike store user full.disk own.disk
  progress : ∀ i, (calls i).user = user → full.progress i = own.progress i

/-- A step of a call of the user itself is taken in both. -/
theorem Follows.step (h : Follows store calls user full own) {i : ι}
    (hi : (calls i).user = user) :
    Follows store calls user (full.step store i) (own.step store i) := by
  subst hi
  have hown : own.progress i = full.progress i := (h.progress i rfl).symm
  have hready := h.consistent_own i
  rw [hown] at hready
  obtain ⟨hprogress, halike⟩ := h.alike.advance (h.consistent i) hready h.steady h.steady_own
  refine ⟨h.consistent.step i, h.consistent_own.step i, (h.consistent i).change.steady h.steady,
    (h.consistent_own i).change.steady h.steady_own, ?_, fun j hj => ?_⟩
  · rw [System.step_disk, System.step_disk, hown]
    exact halike
  · by_cases hsame : j = i
    · rw [hsame, System.step_progress_self, System.step_progress_self, hown, hprogress]
    · rw [System.step_progress_of_ne hsame, System.step_progress_of_ne hsame, h.progress j hj]

/-- A step of a call of another user is taken in one of them only. -/
theorem Follows.step_other (h : Follows store calls user full own) (huser : Path.isName user)
    {i : ι} (hi : (calls i).user ≠ user) :
    Follows store calls user (full.step store i) own := by
  have hchange := (h.consistent i).change
  refine ⟨h.consistent.step i, h.consistent_own, hchange.steady h.steady, h.steady_own,
    (hchange.alike huser hi.symm).trans h.alike, fun j hj => ?_⟩
  have hother : j ≠ i := by
    rintro rfl
    exact hi hj
  rw [System.step_progress_of_ne hother, h.progress j hj]

theorem Follows.run (h : Follows store calls user full own) (huser : Path.isName user)
    (schedule : List ι) :
    Follows store calls user (full.run store schedule)
      (own.run store (schedule.filter fun i => (calls i).user = user)) := by
  induction schedule generalizing full own with
  | nil => exact h
  | cons i schedule ih =>
    by_cases hi : (calls i).user = user
    · rw [List.filter_cons_of_pos (by simpa using hi)]
      exact ih (h.step hi)
    · rw [List.filter_cons_of_neg (by simpa using hi)]
      exact ih (h.step_other huser hi)

end Runs

/-! ## Users apart -/

/-- The steps of other users make no difference to what the calls of a user come to and to what is
in the file of the user, in whatever order they come, unless making the directory of the store
changes by itself what reading this file comes to. The files that are touched lie in the directory,
those of one user are none of another, and a step changes nothing else but that it makes the
directory and those that lead to it. A call for a name that is refused touches no file and leaves
the disk as it is. -/
theorem run_own_steps {ι : Type} [DecidableEq ι] (store : Store) (disk : Disk)
    (calls : ι → Call) :
    (∀ user, Path.isName user → store.stored disk user = disk.read (store.file user) →
      ∀ schedule,
        let full := System.reached store disk calls schedule
        let own := System.reached store disk calls (schedule.filter fun i => (calls i).user = user)
        (∀ i, (calls i).user = user → full.progress i = own.progress i) ∧
          full.disk.read (store.file user) = own.disk.read (store.file user)) ∧
    (∀ schedule i, let system := System.reached store disk calls schedule
      (∀ path ∈ (system.progress i).files store,
        (∃ name, Path.isName name ∧
          Path.segments path = Path.segments store.directory ++ [name]) ∧
        ∀ schedule' j, (calls j).user ≠ (calls i).user →
          ∀ other ∈ ((System.reached store disk calls schedule').progress j).files store,
            Path.segments other ≠ Path.segments path) ∧
      ∀ place, (∀ path ∈ (system.progress i).files store, ∀ there,
          system.disk.locate path = .ok there → ¬ there <+: place) →
        ((system.step store i).disk.item? place = system.disk.item? place ∨
          (system.disk.item? place = none ∧
            (system.step store i).disk.item? place = some .directory ∧
              ∃ part, part <+: Path.segments store.directory ∧ Disk.along [] part = place))) ∧
    ∀ schedule i, ¬ Path.isName (calls i).user →
      let system := System.reached store disk calls schedule
      (system.progress i).files store = [] ∧ (system.step store i).disk = system.disk := by
  have hstart := System.consistent_start store disk calls
  refine ⟨fun user huser hsteady schedule => ?_, fun schedule i => ⟨fun path hpath => ?_, ?_⟩,
    fun schedule i hname => ?_⟩
  · have hfollows := Follows.run ⟨hstart, hstart, hsteady, hsteady, .refl .., fun _ _ => rfl⟩
      huser schedule
    refine ⟨hfollows.progress, ?_⟩
    exact hfollows.steady.symm.trans (hfollows.alike.stored.trans hfollows.steady_own)
  · obtain ⟨huser, name, hmem, rfl⟩ := (hstart.run schedule i).files hpath
    have hname := isName_of_mem_names huser hmem
    refine ⟨⟨name, hname, Disk.segments_join hname _⟩, fun schedule' j hne other hother => ?_⟩
    obtain ⟨huser', name', hmem', rfl⟩ := (hstart.run schedule' j).files hother
    rw [Disk.segments_join hname, Disk.segments_join (isName_of_mem_names huser' hmem')]
    intro heq
    have hsame : name' = name := by simpa using heq
    subst hsame
    exact hne (user_of_mem_names hmem' hmem)
  · intro place hplace
    exact (hstart.run schedule i).frame hplace
  · exact (hstart.run schedule i).idle hname

/-- Saves of two users, a load of one of them, and one for a name that is refused. -/
def fourCalls : Fin 4 → Call :=
  ![.save ⟨"ann", 0, "[1]"⟩, .save ⟨"bob", 0, "[2]"⟩, .load "ann", .load "a/b"]

theorem run_own_steps_ann :
    let system := System.reached ⟨"/s"⟩ Disk.empty fourCalls [0, 1, 1, 3, 0, 1, 0, 2]
    system.progress 2 = .loaded (.ok (some "[1]")) ∧ (system.progress 3).files ⟨"/s"⟩ = [] := by
  obtain ⟨hown, -, hrefused⟩ := run_own_steps ⟨"/s"⟩ Disk.empty fourCalls
  have hann := (hown "ann" (by decide) (by decide +kernel) [0, 1, 1, 3, 0, 1, 0, 2]).1 2 (by decide)
  have hrefused := (hrefused [0, 1, 1, 3, 0, 1, 0, 2] 3 (by decide)).1
  refine ⟨hann.trans ?_, hrefused⟩
  decide +kernel

/-- A save, and a load of another user. -/
def twoCalls (user : String) : Fin 2 → Call :=
  ![.save ⟨"bob", 0, "[1]"⟩, .load user]

/-- A file whose name is too long is not found until another user makes the directory, and cannot
be read from then on. -/
theorem loaded_of_long_name (huser : Path.isName user) (hnul : '\x00' ∉ (fileName user).toList)
    (hlong : Disk.nameLimit < (fileName user).utf8ByteSize) :
    (System.reached ⟨"/s"⟩ Disk.empty (twoCalls user) [1]).progress 1 = .loaded (.ok none) ∧
      (System.reached ⟨"/s"⟩ Disk.empty (twoCalls user) [0, 1]).progress 1 =
        .loaded (.error (.unreadable (Disk.shown (Store.file ⟨"/s"⟩ user)))) := by
  have hname := isName_fileName huser
  constructor
  · have hlost : Disk.empty.read (Store.file ⟨"/s"⟩ user) = .error .notFound := by
      have hpath : '\x00' ∉ (Disk.join "/s" (fileName user)).toList := by
        rw [Disk.mem_join hname _ (by decide)]
        rintro (hmem | hmem)
        · exact absurd hmem (by decide)
        · exact hnul hmem
      refine Disk.read_of_lost ?_
      rw [file_eq, Disk.locate_eq hpath, Disk.segments_join hname]
      rfl
    rw [(run_load_alone _ _ (twoCalls user) 1 user rfl).2, load, if_pos huser, hlost]
    rfl
  · have hmade : Made ⟨"/s"⟩ (Store.made ⟨"/s"⟩ Disk.empty) :=
      made_of_createDirectories (Prod.snd_eq_iff.1 (by decide))
    have hread := hmade.read_of_not_bears hname fun hbears => Nat.not_le.2 hlong hbears.size_le
    rw [unbearable, if_neg hnul, ← file_eq] at hread
    have hbob : (twoCalls user 0).start ⟨"/s"⟩ =
        .ofSteps (saveSteps ⟨"/s"⟩ ⟨"bob", 0, "[1]"⟩) := rfl
    have hload : (twoCalls user 1).start ⟨"/s"⟩ = .loading user := by
      rw [twoCalls, Matrix.cons_val_one, Matrix.cons_val_zero, Call.start, if_pos huser]
    have hmake : (advance ⟨"/s"⟩ Disk.empty ((twoCalls user 0).start ⟨"/s"⟩)).1 =
        Store.made ⟨"/s"⟩ Disk.empty := by
      rw [hbob]
      exact congrArg Prod.fst advance_making
    rw [System.reached, System.run, List.foldl_cons, List.foldl_cons, List.foldl_nil,
      System.step_progress_self, System.step_progress_of_ne (by decide), System.step_disk]
    simp only [System.start]
    rw [hmake, hload, advance, hread]
    rfl

/-- A name of one letter over and over. -/
def longName (length : Nat) : String :=
  String.ofList (List.replicate length 'n')

theorem toList_longName (length : Nat) : (longName length).toList = List.replicate length 'n' :=
  String.toList_ofList

theorem isName_longName {length : Nat} (h : 2 < length) : Path.isName (longName length) := by
  have hlength : (longName length).length = length := by
    rw [← String.length_toList, toList_longName, List.length_replicate]
  refine Path.isName_iff.2 ⟨?_, ?_, fun heq => ?_, fun heq => ?_⟩
  · rw [toList_longName, ne_eq, List.replicate_eq_nil_iff]
    omega
  · simp [toList_longName, List.mem_replicate, Path.separator]
  · rw [heq] at hlength
    exact absurd (hlength ▸ h) (by decide)
  · rw [heq] at hlength
    exact absurd (hlength ▸ h) (by decide)

/-- What the loads of a user come to can depend on other users where the name is too long. -/
theorem not_run_own_steps_of_isName :
    ¬ ∀ user, Path.isName user → ∀ schedule i, (twoCalls user i).user = user →
      (System.reached ⟨"/s"⟩ Disk.empty (twoCalls user) schedule).progress i =
        (System.reached ⟨"/s"⟩ Disk.empty (twoCalls user)
          (schedule.filter fun i => (twoCalls user i).user = user)).progress i := by
  intro h
  have huser : Path.isName (longName 260) := isName_longName (by decide)
  have hnul : '\x00' ∉ (fileName (longName 260)).toList := by
    rw [fileName, String.toList_append, toList_longName, List.mem_append, List.mem_replicate]
    decide
  have hlong : Disk.nameLimit < (fileName (longName 260)).utf8ByteSize := by decide +kernel
  have hbob : (twoCalls (longName 260) 0).user ≠ longName 260 := by decide +kernel
  obtain ⟨hown, hfull⟩ := loaded_of_long_name huser hnul hlong
  have heq := h _ huser [0, 1] 1 rfl
  rw [List.filter_cons_of_neg (by simpa using hbob), List.filter_cons_of_pos (by simp; rfl),
    List.filter_nil, hown, hfull] at heq
  cases heq

end PocketShell.Store
