import PocketShell.Proofs.Disk.Walk
import PocketShell.Store

/-!
# The files of the store

Each user has two files in the directory of the store, and no two users share one. Once the
directory is made, what a step of a save does is told by the items under the names of these files:
a write and a rename change the two of their own user and no other, and the directory stays made.
-/

namespace PocketShell

namespace Disk

/-- Whether a file can bear the name. -/
structure Bears (name : String) : Prop where
  no_nul : '\x00' ∉ name.toList
  size_le : name.utf8ByteSize ≤ nameLimit

variable {disk : Disk} {path : String}

theorem createDirectories_eq (h : '\x00' ∉ path.toList) :
    disk.createDirectories path = disk.makeAlong [] (Path.segments path) := by
  rw [createDirectories, if_neg (by simpa using h)]

/-- Directories that were made are made again, or refused again, without a change. -/
theorem createDirectories_again :
    (disk.createDirectories path).1.createDirectories path = disk.createDirectories path := by
  by_cases h : '\x00' ∈ path.toList
  · simp [createDirectories, h]
  · rw [createDirectories_eq h, createDirectories_eq h, makeAlong_makeAlong]

/-- Only directories along the path are made. -/
theorem item?_createDirectories (disk : Disk) (path : String) (place : Place) :
    (disk.createDirectories path).1.item? place = disk.item? place ∨
      disk.item? place = none ∧
        (disk.createDirectories path).1.item? place = some .directory ∧
          ∃ part, part <+: Path.segments path ∧ along [] part = place := by
  by_cases h : '\x00' ∈ path.toList
  · simp [createDirectories, h]
  · rw [createDirectories_eq h]
    exact item?_makeAlong disk [] _ place

theorem extends_createDirectories (disk : Disk) (path : String) :
    (disk.createDirectories path).1.Extends disk := by
  intro place
  exact (item?_createDirectories disk path place).imp_right fun ⟨hnone, hmade, _⟩ =>
    ⟨hnone, hmade⟩

end Disk

namespace Store

open Disk (Bears contentOf)

variable {store : Store} {disk after : Disk} {user other name : String} {octets : List UInt8}

/-! ## Names of files -/

/-- The name of the file of a user's session. -/
def fileName (user : String) : String :=
  user ++ ".snapshot"

/-- The name of the file that becomes it. -/
def partialName (user : String) : String :=
  user ++ ".snapshot.partial"

theorem file_eq (store : Store) (user : String) :
    store.file user = Disk.join store.directory (fileName user) := rfl

theorem isName_fileName (h : Path.isName user) : Path.isName (fileName user) :=
  Path.isName_append h (by decide) (by decide)

theorem isName_partialName (h : Path.isName user) : Path.isName (partialName user) :=
  Path.isName_append h (by decide) (by decide)

theorem fileName_inj : fileName user = fileName other ↔ user = other := by
  simp [fileName, String.append_left_inj]

theorem partialName_inj : partialName user = partialName other ↔ user = other := by
  simp [partialName, String.append_left_inj]

/-- The one ends in another letter than the other. -/
theorem fileName_ne_partialName (user other : String) : fileName user ≠ partialName other := by
  intro heq
  have hlast := congrArg (fun name => name.toList.getLast?) heq
  simp [fileName, partialName, String.toList_append, List.getLast?_append] at hlast

/-! ## The directory -/

/-- The directory of the store is there, with all that lead to it. -/
def Made (store : Store) (disk : Disk) : Prop :=
  disk.createDirectories store.directory = (disk, .ok ())

/-- The disk once the directory of the store is made, or as much of it as can be. -/
def made (store : Store) (disk : Disk) : Disk :=
  (disk.createDirectories store.directory).1

/-- The place of a file in the directory of the store. -/
def place (store : Store) (name : String) : Disk.Place :=
  Disk.along [] (Path.segments store.directory) ++ [name]

theorem made_iff :
    store.Made disk ↔ '\x00' ∉ store.directory.toList ∧
      Disk.Bearable (Path.segments store.directory) ∧
        disk.Leads [] (Path.segments store.directory) := by
  unfold Made
  by_cases h : '\x00' ∈ store.directory.toList
  · simp [Disk.createDirectories, h]
  · rw [Disk.createDirectories_eq h, Disk.makeAlong_eq_self (by simp [Disk.item?])]
    simp only [h, not_false_eq_true, true_and]

theorem Made.made_eq (h : store.Made disk) : store.made disk = disk := by
  rw [made, h]

theorem createDirectories_made :
    (store.made disk).createDirectories store.directory =
      disk.createDirectories store.directory :=
  Disk.createDirectories_again

theorem made_made : store.made (store.made disk) = store.made disk := by
  rw [made, createDirectories_made]
  rfl

theorem made_of_createDirectories (h : disk.createDirectories store.directory = (after, .ok ())) :
    store.Made after := by
  have hagain : (store.made disk).createDirectories store.directory = _ := createDirectories_made
  rwa [made, h] at hagain

/-- The directory stays made as long as every directory along it stays. -/
theorem Made.of_agree (h : store.Made disk)
    (hagree : ∀ place, disk.item? place = some .directory →
      (∃ part, part <+: Path.segments store.directory ∧ Disk.along [] part = place) →
        after.item? place = some .directory) : store.Made after := by
  obtain ⟨hnul, hbear, hleads⟩ := made_iff.1 h
  exact made_iff.2 ⟨hnul, hbear, fun part hpart =>
    hagree _ (hleads part hpart) ⟨part, hpart, rfl⟩⟩

theorem Made.of_extends (h : store.Made disk) (hextends : after.Extends disk) :
    store.Made after := by
  refine h.of_agree fun place hdirectory _ => ?_
  rcases hextends place with heq | ⟨hnone, -⟩
  · rw [heq, hdirectory]
  · rw [hnone] at hdirectory
    cases hdirectory

theorem place_ne_nil (store : Store) (name : String) : store.place name ≠ [] := by
  simp [place]

theorem place_inj : store.place name = store.place other ↔ name = other := by
  simp [place]

theorem apart_place (store : Store) (h : name ≠ other) :
    Disk.Apart (store.place name) (store.place other) := by
  have hlength : (store.place name).length = (store.place other).length := by simp [place]
  constructor
  · intro hbelow
    exact h (place_inj.1 (hbelow.eq_of_length hlength))
  · intro hbelow
    exact h (place_inj.1 (hbelow.eq_of_length hlength.symm)).symm

/-- Nothing along the directory of the store lies at or below a place that is no directory. -/
theorem Made.not_prefix_along {place : Disk.Place} {part : List String} (h : store.Made disk)
    (hplace : disk.item? place ≠ some .directory)
    (hpart : part <+: Path.segments store.directory) : ¬ place <+: Disk.along [] part := by
  intro hbelow
  obtain ⟨earlier, hearlier, rfl⟩ := Disk.exists_prefix_along part hbelow
  exact hplace ((made_iff.1 h).2.2 earlier (hearlier.trans hpart))

/-! ## Files in a directory that is made -/

section Files

variable {target : String}

theorem Made.locate (h : store.Made disk) (hname : Path.isName name) (hbears : Bears name) :
    disk.locate (Disk.join store.directory name) = .ok (store.place name) := by
  obtain ⟨hnul, hbear, hleads⟩ := made_iff.1 h
  have hpath : '\x00' ∉ (Disk.join store.directory name).toList := by
    rw [Disk.mem_join hname _ (by decide)]
    rintro (hmem | hmem)
    · exact hnul hmem
    · exact hbears.no_nul hmem
  rw [Disk.locate_eq hpath, Disk.segments_join hname, Disk.walk_of_leads hleads hbear,
    Disk.follow_of_directory (hleads _ (List.prefix_refl _)), if_pos hbears.size_le,
    Disk.foldStep_of_isName hname]
  rfl

/-- Why a file of a name that no file can bear is not found where it should be. -/
def unbearable (name : String) : Disk.Fault :=
  if '\x00' ∈ name.toList then .invalid else .nameTooLong

theorem Made.locate_of_not_bears (h : store.Made disk) (hname : Path.isName name)
    (hbears : ¬ Bears name) :
    disk.locate (Disk.join store.directory name) = .error (unbearable name) := by
  obtain ⟨hnul, hbear, hleads⟩ := made_iff.1 h
  by_cases hmem : '\x00' ∈ name.toList
  · rw [unbearable, if_pos hmem]
    exact Disk.locate_of_nul ((Disk.mem_join hname _ (by decide)).2 (.inr hmem))
  · have hpath : '\x00' ∉ (Disk.join store.directory name).toList := by
      rw [Disk.mem_join hname _ (by decide)]
      rintro (hdirectory | hfile)
      · exact hnul hdirectory
      · exact hmem hfile
    rw [Disk.locate_eq hpath, Disk.segments_join hname, Disk.walk_of_leads hleads hbear,
      Disk.follow_of_directory (hleads _ (List.prefix_refl _)),
      if_neg fun hsize => hbears ⟨hmem, hsize⟩, unbearable, if_neg hmem]

theorem Made.read (h : store.Made disk) (hname : Path.isName name) (hbears : Bears name) :
    disk.read (Disk.join store.directory name) = contentOf (disk.item? (store.place name)) :=
  Disk.read_of_located (h.locate hname hbears)

theorem Made.read_of_not_bears (h : store.Made disk) (hname : Path.isName name)
    (hbears : ¬ Bears name) :
    disk.read (Disk.join store.directory name) = .error (unbearable name) :=
  Disk.read_of_lost (h.locate_of_not_bears hname hbears)

/-- Two disks with the directory made have the same to read in a file when they have the same item
in its place. -/
theorem Made.read_congr (h : store.Made disk) (hafter : store.Made after)
    (hname : Path.isName name)
    (heq : after.item? (store.place name) = disk.item? (store.place name)) :
    after.read (Disk.join store.directory name) = disk.read (Disk.join store.directory name) := by
  by_cases hbears : Bears name
  · rw [h.read hname hbears, hafter.read hname hbears, heq]
  · rw [h.read_of_not_bears hname hbears, hafter.read_of_not_bears hname hbears]

/-- When a file can be written, and what the disk is then. -/
theorem Made.write_eq_ok (h : store.Made disk) (hname : Path.isName name) :
    disk.write (Disk.join store.directory name) octets = .ok after ↔
      Bears name ∧ disk.item? (store.place name) ≠ some .directory ∧
        disk.put (store.place name) (.file octets) = after := by
  unfold Disk.write
  by_cases hbears : Bears name
  · rw [h.locate hname hbears]
    by_cases hitem : disk.item? (store.place name) = some .directory <;>
      simp [bind, Except.bind, hitem, hbears]
  · rw [h.locate_of_not_bears hname hbears]
    simp [bind, Except.bind, hbears]

/-- When a file can take the place of another one, and what the disk is then. -/
theorem Made.rename_eq_ok (h : store.Made disk) (hname : Path.isName name)
    (htarget : Path.isName target) (hne : name ≠ target)
    (hitem : disk.item? (store.place name) ≠ some .directory) :
    disk.rename (Disk.join store.directory name) (Disk.join store.directory target) = .ok after ↔
      Bears name ∧ Bears target ∧ disk.item? (store.place name) ≠ none ∧
        disk.item? (store.place target) ≠ some .directory ∧
          disk.replace (store.place name) (store.place target) = after := by
  have hapart := store.apart_place hne
  have hplaces : store.place name ≠ store.place target := fun heq => hne (place_inj.1 heq)
  have hbelow : (store.place name).isPrefixOf (store.place target) = false := by
    rw [Bool.eq_false_iff]
    intro htrue
    exact hapart.not_below (List.isPrefixOf_iff_prefix.1 htrue)
  unfold Disk.rename
  by_cases hbears : Bears name
  · by_cases hbearstarget : Bears target
    · rw [h.locate hname hbears, h.locate htarget hbearstarget]
      cases hsource : disk.item? (store.place name) with
      | none => simp [bind, Except.bind, hsource]
      | some item =>
        cases item with
        | directory => exact absurd hsource hitem
        | file content =>
          simp only [bind, Except.bind, hsource, if_neg hplaces, hbelow, Disk.mayReplace,
            Disk.replace]
          rcases hold : disk.item? (store.place target) with _ | _ | _ <;>
            simp [hbears, hbearstarget]
    · rw [h.locate hname hbears, h.locate_of_not_bears htarget hbearstarget]
      simp [bind, Except.bind, hbearstarget]
  · rw [h.locate_of_not_bears hname hbears]
    simp [bind, Except.bind, hbears]

/-- A written file is there, the others stay as they are, and so does the directory. -/
theorem Made.write (h : store.Made disk) (hname : Path.isName name)
    (hwrite : disk.write (Disk.join store.directory name) octets = .ok after) :
    store.Made after ∧ ∀ other, after.item? (store.place other) =
      if other = name then some (.file octets) else disk.item? (store.place other) := by
  obtain ⟨-, hitem, rfl⟩ := (h.write_eq_ok hname).1 hwrite
  refine ⟨h.of_agree fun place hdirectory _ => ?_, fun other => ?_⟩
  · rw [Disk.item?_put (place_ne_nil store name), if_neg, hdirectory]
    rintro rfl
    exact hitem hdirectory
  · rw [Disk.item?_put (place_ne_nil store name)]
    simp only [place_inj]

/-- A renamed file is in the place of the other one, the others stay as they are, and so does the
directory. -/
theorem Made.rename (h : store.Made disk) (hname : Path.isName name)
    (htarget : Path.isName target) (hne : name ≠ target)
    (hitem : disk.item? (store.place name) ≠ some .directory)
    (hrename : disk.rename (Disk.join store.directory name) (Disk.join store.directory target) =
      .ok after) :
    store.Made after ∧ ∀ other, after.item? (store.place other) =
      if other = target then disk.item? (store.place name)
      else if other = name then none else disk.item? (store.place other) := by
  have hapart := store.apart_place hne
  obtain ⟨-, -, -, hold, rfl⟩ := (h.rename_eq_ok hname htarget hne hitem).1 hrename
  refine ⟨h.of_agree ?_, fun other => ?_⟩
  · rintro place hdirectory ⟨part, hpart, rfl⟩
    rw [Disk.item?_replace_of_apart hapart (h.not_prefix_along hitem hpart)
      (h.not_prefix_along hold hpart), hdirectory]
  · by_cases htargeted : other = target
    · rw [if_pos htargeted, htargeted, Disk.item?_replace_target hapart]
    by_cases hnamed : other = name
    · rw [if_neg htargeted, if_pos hnamed, hnamed, Disk.item?_replace_source hapart]
    · rw [if_neg htargeted, if_neg hnamed, Disk.item?_replace_of_apart hapart
        (store.apart_place (Ne.symm hnamed)).not_below
        (store.apart_place (Ne.symm htargeted)).not_below]

/-- When a partial file can be renamed to the file of its user, and what the disk is then. -/
theorem Made.rename_partial_eq_ok (h : store.Made disk) (huser : Path.isName user)
    (hitem : disk.item? (store.place (partialName user)) ≠ some .directory) :
    disk.rename (store.partialFile user) (store.file user) = .ok after ↔
      Bears (partialName user) ∧ Bears (fileName user) ∧
        disk.item? (store.place (partialName user)) ≠ none ∧
          disk.item? (store.place (fileName user)) ≠ some .directory ∧
            disk.replace (store.place (partialName user)) (store.place (fileName user)) = after :=
  h.rename_eq_ok (isName_partialName huser) (isName_fileName huser)
    (fileName_ne_partialName user user).symm hitem

theorem Made.rename_partial (h : store.Made disk) (huser : Path.isName user)
    (hitem : disk.item? (store.place (partialName user)) ≠ some .directory)
    (hrename : disk.rename (store.partialFile user) (store.file user) = .ok after) :
    store.Made after ∧ ∀ other, after.item? (store.place other) =
      if other = fileName user then disk.item? (store.place (partialName user))
      else if other = partialName user then none else disk.item? (store.place other) :=
  h.rename (isName_partialName huser) (isName_fileName huser)
    (fileName_ne_partialName user user).symm hitem hrename

/-- A partial file that is written and renamed is the file of its user, where there was a file or
nothing before; the partial file is gone, and the others stay as they are. -/
theorem Made.write_rename {written : Disk} (h : store.Made disk) (huser : Path.isName user)
    (hwrite : disk.write (store.partialFile user) octets = .ok written)
    (hrename : written.rename (store.partialFile user) (store.file user) = .ok after) :
    store.Made after ∧ Bears (fileName user) ∧
      disk.item? (store.place (fileName user)) ≠ some .directory ∧
        ∀ other, after.item? (store.place other) =
          if other = fileName user then some (.file octets)
          else if other = partialName user then none else disk.item? (store.place other) := by
  obtain ⟨hwritten, hitems⟩ := h.write (isName_partialName huser) hwrite
  have hpartial : written.item? (store.place (partialName user)) = some (.file octets) := by
    rw [hitems, if_pos rfl]
  have hnot : written.item? (store.place (partialName user)) ≠ some .directory := by
    rw [hpartial]
    simp
  obtain ⟨-, hbears, -, hfree, -⟩ := (hwritten.rename_partial_eq_ok huser hnot).1 hrename
  obtain ⟨hafter, hmoved⟩ := hwritten.rename_partial huser hnot hrename
  refine ⟨hafter, hbears, ?_, fun other => ?_⟩
  · rwa [hitems, if_neg (fileName_ne_partialName user user)] at hfree
  · rw [hmoved, hpartial, hitems]
    split_ifs <;> rfl

end Files

/-! ## What is stored of a user -/

/-- What the file of a user holds, once the directory of the store is made. -/
def stored (store : Store) (disk : Disk) (user : String) : Except Disk.Fault (List UInt8) :=
  (store.made disk).read (store.file user)

theorem Made.stored_eq (h : store.Made disk) (user : String) :
    store.stored disk user = disk.read (store.file user) := by
  rw [stored, h.made_eq]

/-- Before the directory is made, a file is read as it will be, or it is not found. -/
theorem read_cases (store : Store) (disk : Disk) (user : String) :
    disk.read (store.file user) = .error .notFound ∨
      disk.read (store.file user) = store.stored disk user :=
  (Disk.extends_createDirectories disk store.directory).read (store.file user)

theorem read_of_stored_notFound (h : store.stored disk user = .error .notFound) :
    disk.read (store.file user) = .error .notFound := by
  rcases store.read_cases disk user with hlost | heq
  · exact hlost
  · rw [heq, h]

/-- Where there is no file, nothing is stored. -/
theorem stored_ne_ok (h : ∀ place octets, disk.item? place ≠ some (.file octets)) (user : String)
    (octets : List UInt8) : store.stored disk user ≠ .ok octets := by
  intro hstored
  rw [stored] at hstored
  cases hlocate : (store.made disk).locate (store.file user) with
  | error fault =>
    rw [Disk.read_of_lost hlocate] at hstored
    cases hstored
  | ok place =>
    rw [Disk.read_of_located hlocate] at hstored
    rcases Disk.extends_createDirectories disk store.directory place with heq | ⟨-, hdirectory⟩
    · rw [made, heq] at hstored
      rcases hitem : disk.item? place with _ | _ | held
      · rw [hitem] at hstored
        cases hstored
      · rw [hitem] at hstored
        cases hstored
      · exact h place held hitem
    · rw [made, hdirectory] at hstored
      cases hstored

theorem stored_of_made_eq (h : store.made after = store.made disk) (user : String) :
    store.stored after user = store.stored disk user := by
  rw [stored, stored, h]

/-- A user's file that has the same item as before is stored as before. -/
theorem Made.stored_congr (h : store.Made disk) (hafter : store.Made after)
    (huser : Path.isName user)
    (heq : after.item? (store.place (fileName user)) =
      disk.item? (store.place (fileName user))) :
    store.stored after user = store.stored disk user := by
  rw [h.stored_eq, hafter.stored_eq]
  exact h.read_congr hafter (isName_fileName huser) heq

end Store

end PocketShell
