import PocketShell.Proofs.Store.Files
import PocketShell.Proofs.Store.Record

/-!
# Saves that fail or are cut off

A save can end at any of its steps, because the step fails or because everything stops, and the
step it ends at may be half done: some directories are made, or the partial file holds anything.
Only a rename is done wholly or not at all. Whatever becomes of a sequence of saves, what is loaded
is what the last save with a rename had to save (`load_history`).
-/

namespace PocketShell.Store

open Disk (Bears)

variable {store : Store} {start disk after : Disk} {record : Record} {user : String}
  {step : Step} {steps taken : List Step}

/-! ## Attempts -/

/-- What a step can leave of the disk when it fails or is cut off. -/
inductive Step.Cut (disk : Disk) : Step → Disk → Prop
  | untouched (step : Step) : Cut disk step disk
  /-- The directories of a first part of the path are made. -/
  | createDirectories {path : String} {part : List String} : '\x00' ∉ path.toList →
      part <+: Path.segments path →
        Cut disk (.createDirectories path) (disk.makeAlong [] part).1
  /-- The file holds other octets than it should. -/
  | write {path : String} {octets others : List UInt8} {after : Disk} :
      disk.write path others = .ok after → Cut disk (.write path octets) after

/-- How far steps can get: the ones taken before one that fails or is cut off, or all of them, and
what becomes of the disk. -/
inductive Attempt : List Step → Disk → List Step → Disk → Prop
  | finished (disk : Disk) : Attempt [] disk [] disk
  | cut {step : Step} {steps : List Step} {disk after : Disk} : step.Cut disk after →
      Attempt (step :: steps) disk [] after
  | taken {step : Step} {steps taken : List Step} {disk middle after : Disk} :
      step.run disk = (middle, .ok ()) → Attempt steps middle taken after →
        Attempt (step :: steps) disk (step :: taken) after

theorem Step.run_write {path : String} {octets : List UInt8} :
    (Step.write path octets).run disk = (after, .ok ()) ↔ disk.write path octets = .ok after := by
  rw [Step.run]
  cases disk.write path octets <;> simp

theorem Step.run_rename {source target : String} :
    (Step.rename source target).run disk = (after, .ok ()) ↔
      disk.rename source target = .ok after := by
  rw [Step.run]
  cases disk.rename source target <;> simp

/-- A step that fails leaves what it can leave. -/
theorem Step.cut_of_run {fault : Disk.Fault} (h : step.run disk = (after, .error fault)) :
    step.Cut disk after := by
  cases step with
  | createDirectories path =>
    rw [Step.run] at h
    by_cases hnul : '\x00' ∈ path.toList
    · rw [Disk.createDirectories, if_pos (by simpa using hnul)] at h
      cases h
      exact .untouched _
    · rw [Disk.createDirectories_eq hnul] at h
      have hcut : Cut disk (.createDirectories path) _ :=
        .createDirectories hnul (List.prefix_refl _)
      rwa [h] at hcut
  | write path octets =>
    rw [Step.run] at h
    split at h
    · cases h
    · cases h
      exact .untouched _
  | rename source target =>
    rw [Step.run] at h
    split at h
    · cases h
    · cases h
      exact .untouched _

/-- Steps that run up to the first that fails are an attempt, of all of them if none fails. -/
theorem attempt_runSteps (disk : Disk) (steps : List Step) :
    ∃ taken, Attempt steps disk taken (runSteps disk steps).1 ∧
      (taken = steps ↔ (runSteps disk steps).2 = .ok ()) := by
  induction steps generalizing disk with
  | nil => exact ⟨[], .finished disk, by simp [runSteps]⟩
  | cons step rest ih =>
    cases hrun : step.run disk with
    | mk middle outcome =>
      cases outcome with
      | error fault =>
        refine ⟨[], ?_, by simp [runSteps, hrun]⟩
        simp only [runSteps, hrun]
        exact .cut (Step.cut_of_run hrun)
      | ok =>
        obtain ⟨taken, hattempt, hall⟩ := ih middle
        refine ⟨step :: taken, ?_, ?_⟩
        · simp only [runSteps, hrun]
          exact .taken hrun hattempt
        · simp only [runSteps, hrun, List.cons.injEq, true_and]
          exact hall

/-! ## What becomes of a save -/

/-- All that a save can do to the disk, and whether it gets to its last step, the rename. -/
inductive Effect (store : Store) (record : Record) (disk after : Disk) : Bool → Prop
  /-- At most directories are made. -/
  | prepared : after.Extends disk → store.made after = store.made disk →
      Effect store record disk after false
  /-- The partial file is written, rightly or not. -/
  | written {octets : List UInt8} : store.Made (store.made disk) →
      (store.made disk).write (store.partialFile record.user) octets = .ok after →
        Effect store record disk after false
  /-- The partial file is written and renamed. -/
  | replaced {written : Disk} : store.Made (store.made disk) →
      (store.made disk).write (store.partialFile record.user) record.write = .ok written →
        written.rename (store.partialFile record.user) (store.file record.user) = .ok after →
          Effect store record disk after true

theorem Attempt.effect (h : Attempt (store.saveSteps record) disk taken after) :
    Effect store record disk after (decide (taken = store.saveSteps record)) := by
  cases h with
  | cut hcut =>
    have hnone : decide (([] : List Step) = store.saveSteps record) = false := by simp [saveSteps]
    rw [hnone]
    cases hcut with
    | untouched => exact .prepared (fun place => .inl rfl) rfl
    | @createDirectories _ part hnul hpart =>
      refine .prepared (Disk.extends_makeAlong disk [] part) ?_
      rw [made, made, Disk.createDirectories_eq hnul, Disk.createDirectories_eq hnul,
        Disk.makeAlong_of_part hpart]
  | @taken _ _ _ _ directories _ hmake h =>
    have hmade : store.made disk = directories := by
      rw [made]
      exact congrArg Prod.fst hmake
    have hready : store.Made (store.made disk) := by
      rw [hmade]
      exact made_of_createDirectories hmake
    cases h with
    | cut hcut =>
      have hnone : decide ([Step.createDirectories store.directory] = store.saveSteps record) =
          false := by simp [saveSteps]
      rw [hnone]
      cases hcut with
      | untouched =>
        rw [← hmade]
        exact .prepared (Disk.extends_createDirectories disk store.directory) made_made
      | write hwrite =>
        rw [← hmade] at hwrite
        exact .written hready hwrite
    | @taken _ _ _ _ written _ hwrite h =>
      have hwritten : (store.made disk).write (store.partialFile record.user) record.write =
          .ok written := by
        rw [hmade]
        exact Step.run_write.1 hwrite
      cases h with
      | cut hcut =>
        have hnone : decide ([Step.createDirectories store.directory,
            .write (store.partialFile record.user) record.write] = store.saveSteps record) =
              false := by simp [saveSteps]
        rw [hnone]
        cases hcut
        exact .written hready hwritten
      | taken hrename h =>
        cases h
        have hall : decide (store.saveSteps record = store.saveSteps record) = true := by simp
        refine hall ▸ ?_
        exact .replaced hready hwritten (Step.run_rename.1 hrename)

variable {other : String} {renamed : Bool}

/-- A save is an attempt at its steps, of all of them if it succeeds. -/
theorem attempt_save {result : Except Fault Unit} (huser : Path.isName record.user)
    (h : store.save disk record = (after, result)) :
    ∃ taken, Attempt (store.saveSteps record) disk taken after ∧
      (taken = store.saveSteps record ↔ result = .ok ()) := by
  have hattempt := attempt_runSteps disk (store.saveSteps record)
  rw [save, stepsFor, if_pos huser] at h
  simp only at h
  rwa [h] at hattempt

/-- What a save does, and what it answers. -/
theorem effect_save {result : Except Fault Unit} (huser : Path.isName record.user)
    (h : store.save disk record = (after, result)) :
    Effect store record disk after (decide (result = .ok ())) := by
  obtain ⟨taken, hattempt, hall⟩ := attempt_save huser h
  have heffect := hattempt.effect
  rwa [decide_eq_decide.2 hall] at heffect

theorem Effect.made (h : Effect store record disk after renamed) (huser : Path.isName record.user)
    (hmade : store.Made disk) : store.Made after := by
  cases h with
  | prepared hextends => exact hmade.of_extends hextends
  | written hready hwrite => exact (hready.write (isName_partialName huser) hwrite).1
  | replaced hready hwrite hrename => exact (hready.write_rename huser hwrite hrename).1

/-- A save without a rename leaves what is stored of every user. -/
theorem Effect.stored_of_not_renamed (h : Effect store record disk after false)
    (huser : Path.isName record.user) (hother : Path.isName other) :
    store.stored after other = store.stored disk other := by
  cases h with
  | prepared _ hmade => exact stored_of_made_eq hmade other
  | written hready hwrite =>
    obtain ⟨hwritten, hitems⟩ := hready.write (isName_partialName huser) hwrite
    rw [hready.stored_congr hwritten hother, stored_of_made_eq made_made]
    rw [hitems, if_neg (fileName_ne_partialName _ _)]

/-- A save with a rename stores its record, and leaves what is stored of every other user. -/
theorem Effect.stored_of_renamed (h : Effect store record disk after true)
    (huser : Path.isName record.user) :
    store.Made after ∧ Bears (fileName record.user) ∧
      store.stored after record.user = .ok record.write ∧
      ∀ other, Path.isName other → other ≠ record.user →
        store.stored after other = store.stored disk other := by
  cases h with
  | replaced hready hwrite hrename =>
    obtain ⟨hafter, hbears, -, hitems⟩ := hready.write_rename huser hwrite hrename
    refine ⟨hafter, hbears, ?_, fun other hother hne => ?_⟩
    · rw [hafter.stored_eq, file_eq, hafter.read (isName_fileName huser) hbears, hitems,
        if_pos rfl]
      rfl
    · rw [hready.stored_congr hafter hother, stored_of_made_eq made_made]
      rw [hitems, if_neg fun heq => hne (fileName_inj.1 heq),
        if_neg (fileName_ne_partialName _ _)]

/-- A save gets to its rename only where there is a file or nothing in the place of its user's. -/
theorem Effect.stored_cases (h : Effect store record disk after true)
    (huser : Path.isName record.user) :
    store.stored disk record.user = .error .notFound ∨
      ∃ octets, store.stored disk record.user = .ok octets := by
  cases h with
  | replaced hready hwrite hrename =>
    obtain ⟨-, hbears, hfree, -⟩ := hready.write_rename huser hwrite hrename
    rw [stored, file_eq, hready.read (isName_fileName huser) hbears]
    rcases hitem : (store.made disk).item? (store.place (fileName record.user)) with _ | _ | octets
    · exact .inl rfl
    · exact absurd hitem hfree
    · exact .inr ⟨octets, rfl⟩

/-- A save without a rename leaves also what is read of every user, unless making the directory
changes that by itself. -/
theorem Effect.read_of_not_renamed (h : Effect store record disk after false)
    (huser : Path.isName record.user) (hother : Path.isName other)
    (hsteady : store.stored disk other = disk.read (store.file other)) :
    after.read (store.file other) = disk.read (store.file other) := by
  have hstored := h.stored_of_not_renamed huser hother
  cases h with
  | prepared hextends =>
    rcases store.read_cases after other with hlost | heq
    · rcases hextends.read (store.file other) with hlost' | heq'
      · rw [hlost, hlost']
      · exact heq'.symm
    · rw [heq, hstored, hsteady]
  | written hready hwrite =>
    rw [← (hready.write (isName_partialName huser) hwrite).1.stored_eq, hstored, hsteady]

/-! ## Histories -/

/-- A save that was tried, and whether it got to its rename. -/
structure Saving where
  record : Record
  renamed : Bool
  deriving DecidableEq, Repr

/-- What becomes of a disk by saves one after another, each of which ends anywhere. -/
inductive History (store : Store) (start : Disk) : List Saving → Disk → Prop
  | start : History store start [] start
  | save {history : List Saving} {disk after : Disk} {record : Record} {taken : List Step} :
      History store start history disk → Path.isName record.user →
        Attempt (store.saveSteps record) disk taken after →
          History store start (history ++ [⟨record, decide (taken = store.saveSteps record)⟩]) after

/-- The record of the last save of a user that got to its rename. -/
def lastRenamed (history : List Saving) (user : String) : Option Record :=
  ((history.filter fun saving => saving.renamed && saving.record.user == user).getLast?).map
    Saving.record

variable {history : List Saving}

theorem lastRenamed_append (history : List Saving) (saving : Saving) (user : String) :
    lastRenamed (history ++ [saving]) user =
      if saving.renamed ∧ saving.record.user = user then some saving.record
      else lastRenamed history user := by
  unfold lastRenamed
  by_cases hrenamed : saving.renamed ∧ saving.record.user = user
  · simp [List.filter_append, hrenamed]
  · have hnone : [saving].filter (fun saving => saving.renamed && saving.record.user == user) =
        [] := by
      simpa [List.filter_cons] using hrenamed
    rw [List.filter_append, hnone, List.append_nil, if_neg hrenamed]

theorem user_of_lastRenamed (h : lastRenamed history user = some record) :
    record.user = user ∧ ∃ saving ∈ history, saving.record = record := by
  obtain ⟨saving, hlast, rfl⟩ := Option.map_eq_some_iff.1 h
  obtain ⟨hmem, hkept⟩ := List.mem_filter.1 (List.mem_of_getLast? hlast)
  exact ⟨by simpa using (Bool.and_eq_true_iff.1 hkept).2, saving, hmem, rfl⟩

/-- A save that runs to its end or to a step that fails goes on with a history. -/
theorem History.of_save {result : Except Fault Unit} (h : History store start history disk)
    (huser : Path.isName record.user) (hsave : store.save disk record = (after, result)) :
    History store start (history ++ [⟨record, decide (result = .ok ())⟩]) after := by
  obtain ⟨taken, hattempt, hall⟩ := attempt_save huser hsave
  rw [← decide_eq_decide.2 hall]
  exact h.save huser hattempt

/-- What is stored of a user after a history. -/
theorem History.stored (h : History store start history disk) (huser : Path.isName user) :
    match lastRenamed history user with
    | none => store.stored disk user = store.stored start user
    | some record => store.Made disk ∧ Bears (fileName user) ∧
        store.stored disk user = .ok record.write := by
  induction h with
  | start => rfl
  | @save history disk after record taken _ hrecord hattempt ih =>
    rw [lastRenamed_append]
    have heffect := hattempt.effect
    cases hrenamed : decide (taken = store.saveSteps record) with
    | false =>
      rw [hrenamed] at heffect
      rw [if_neg (by simp)]
      have hstored := heffect.stored_of_not_renamed hrecord huser
      cases hlast : lastRenamed history user with
      | none => simpa only [hlast, hstored] using ih
      | some last =>
        rw [hlast] at ih
        exact ⟨heffect.made hrecord ih.1, ih.2.1, hstored.trans ih.2.2⟩
    | true =>
      rw [hrenamed] at heffect
      obtain ⟨hmade, hbears, hstored, hothers⟩ := heffect.stored_of_renamed hrecord
      by_cases hsame : record.user = user
      · rw [if_pos ⟨rfl, hsame⟩]
        subst hsame
        exact ⟨hmade, hbears, hstored⟩
      · rw [if_neg fun hboth => hsame hboth.2]
        have hother := hothers user huser (Ne.symm hsame)
        cases hlast : lastRenamed history user with
        | none => simpa only [hlast, hother] using ih
        | some last =>
          rw [hlast] at ih
          exact ⟨hmade, ih.2.1, hother.trans ih.2.2⟩

/-! ## Loading after a history -/

theorem storable_of_bears (hbears : Bears (fileName record.user))
    (hfits : record.snapshot.utf8ByteSize < Snapshot.addressable) : record.Storable := by
  refine ⟨?_, hfits⟩
  have hsize := hbears.size_le
  have hlimit : Disk.nameLimit < Snapshot.addressable := by decide
  rw [fileName, String.utf8ByteSize_append] at hsize
  omega

/-- What a save that succeeds has saved is loaded. -/
theorem load_of_save (h : store.save disk record = (after, .ok ()))
    (hfits : record.snapshot.utf8ByteSize < Snapshot.addressable) :
    store.load after record.user = .ok (some record.snapshot) := by
  by_cases huser : Path.isName record.user
  · obtain ⟨hmade, hbears, hcontent, -⟩ := (effect_save huser h).stored_of_renamed huser
    rw [hmade.stored_eq, ← List.append_nil record.write] at hcontent
    rw [load_of_written huser (storable_of_bears hbears hfits) hcontent, if_pos rfl]
  · rw [save, stepsFor, if_neg huser] at h
    cases h

/-- What is loaded is what the last save with a rename had to save, whatever became of it and of
the saves after it, and nothing when there was none. This holds of every user whose file is not
found once the directory of the store is made. A save that fails leaves what is stored of every
user, and what is loaded unless making the directory alone changes that; and one that succeeds is
loaded, whatever earlier saves have left behind. Snapshots are ones that a machine of 64 bits can
hold. -/
theorem load_history (h : History store start history disk)
    (hfits : ∀ saving ∈ history, saving.record.snapshot.utf8ByteSize < Snapshot.addressable) :
    (∀ user, Path.isName user → store.stored start user = .error .notFound →
      store.load disk user = .ok ((lastRenamed history user).map Record.snapshot)) ∧
    (∀ disk record after fault, store.save disk record = (after, .error fault) →
      ∀ user, Path.isName user → store.stored after user = store.stored disk user ∧
        (store.stored disk user = disk.read (store.file user) →
          store.load after user = store.load disk user)) ∧
    ∀ disk record after, record.snapshot.utf8ByteSize < Snapshot.addressable →
      store.save disk record = (after, .ok ()) →
        store.load after record.user = .ok (some record.snapshot) := by
  refine ⟨fun user huser hempty => ?_, fun disk record after fault hsave user huser => ?_,
    fun disk record after hfits hsave => ?_⟩
  · have hstored := h.stored huser
    cases hlast : lastRenamed history user with
    | none =>
      rw [hlast, hempty] at hstored
      rw [load_of_read huser (read_of_stored_notFound hstored)]
      rfl
    | some record =>
      rw [hlast] at hstored
      obtain ⟨hmade, hbears, hcontent⟩ := hstored
      obtain ⟨rfl, saving, hmem, rfl⟩ := user_of_lastRenamed hlast
      rw [hmade.stored_eq, ← List.append_nil saving.record.write] at hcontent
      rw [load_of_written huser (storable_of_bears hbears (hfits saving hmem)) hcontent,
        if_pos rfl]
      rfl
  · by_cases hrecord : Path.isName record.user
    · have heffect := effect_save hrecord hsave
      refine ⟨heffect.stored_of_not_renamed hrecord huser, fun hsteady => ?_⟩
      rw [load_of_read huser (heffect.read_of_not_renamed hrecord huser hsteady),
        load_of_read huser rfl]
    · rw [save, stepsFor, if_neg hrecord] at hsave
      cases hsave
      exact ⟨rfl, fun _ => rfl⟩
  · exact load_of_save hsave hfits

/-- A save that succeeds, and after it one that is cut off when the partial file holds one octet. -/
theorem load_history_ann :
    ∃ disk, History ⟨"/s"⟩ Disk.empty
        [⟨⟨"ann", 0, "[1]"⟩, true⟩, ⟨⟨"ann", 1, "[2]"⟩, false⟩] disk ∧
      Store.load ⟨"/s"⟩ disk "ann" = .ok (some "[1]") := by
  have hsave : Store.save ⟨"/s"⟩ Disk.empty ⟨"ann", 0, "[1]"⟩ =
      ((Store.save ⟨"/s"⟩ Disk.empty ⟨"ann", 0, "[1]"⟩).1, .ok ()) :=
    Prod.snd_eq_iff.1 (by decide +kernel)
  have hsaved := History.start.of_save (by decide) hsave
  generalize hdisk : (Store.save ⟨"/s"⟩ Disk.empty ⟨"ann", 0, "[1]"⟩).1 = saved at hsaved
  have hmake : (Step.createDirectories "/s").run saved =
      (((Step.createDirectories "/s").run saved).1, .ok ()) := by
    subst hdisk
    exact Prod.snd_eq_iff.1 (by decide +kernel)
  obtain ⟨disk, hwrite⟩ : ∃ disk, ((Step.createDirectories "/s").run saved).1.write
      "/s/ann.snapshot.partial" [255] = .ok disk := by
    have hok : (((Step.createDirectories "/s").run saved).1.write
        "/s/ann.snapshot.partial" [255]).isOk = true := by
      subst hdisk
      decide +kernel
    revert hok
    cases ((Step.createDirectories "/s").run saved).1.write "/s/ann.snapshot.partial" [255] with
    | ok disk => exact fun _ => ⟨disk, rfl⟩
    | error fault => exact fun h => by cases h
  have hattempt : Attempt (saveSteps ⟨"/s"⟩ ⟨"ann", 1, "[2]"⟩) saved
      [.createDirectories "/s"] disk := .taken hmake (.cut (.write hwrite))
  have hcut := hsaved.save (by decide) hattempt
  exact ⟨disk, hcut, (load_history hcut (by decide)).1 "ann" (by decide) (by decide +kernel)⟩

/-- A name that no file can bear is not loaded as a name without a session. -/
theorem not_load_history_of_isName :
    ¬ ∀ user, Path.isName user → ∀ history disk, History ⟨"/s"⟩ Disk.empty history disk →
      Store.load ⟨"/s"⟩ disk user = .ok ((lastRenamed history user).map Record.snapshot) := by
  intro h
  have hload := h "a\x00" (by decide) [] Disk.empty .start
  exact absurd hload (by decide)

end PocketShell.Store
