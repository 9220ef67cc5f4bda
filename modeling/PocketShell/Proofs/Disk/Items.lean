import PocketShell.Disk
import Mathlib.Logic.Basic

/-!
# What changes put in which place

A disk is known by what it has in each place. An item that is put in a place is there and changes
no other; an item that is moved is found in its new place and no more in the old one, and all that
lies at or below neither of the two stays.
-/

namespace PocketShell.Disk

/-! ## Look-ups in changed lists -/

section Lookup

variable {κ ν : Type} [BEq κ] [LawfulBEq κ]

theorem lookup_filter_key (keep : κ → Bool) (entries : List (κ × ν)) (key : κ) :
    (entries.filter fun entry => keep entry.1).lookup key =
      if keep key then entries.lookup key else none := by
  induction entries with
  | nil => simp
  | cons entry rest ih =>
    obtain ⟨other, value⟩ := entry
    by_cases hother : keep other <;> by_cases hkey : key = other
    · subst hkey
      simp [hother]
    · simp [hother, List.lookup_cons, beq_eq_false_iff_ne.2 hkey, ih]
    · subst hkey
      simpa [hother] using ih
    · simp [hother, List.lookup_cons, beq_eq_false_iff_ne.2 hkey, ih]

/-- Of changed keys, only one becomes the key that is looked up. -/
theorem lookup_map_key {change : κ → κ} {key : κ} (old : κ) {entries : List (κ × ν)}
    (h : ∀ entry ∈ entries, change entry.1 = key ↔ entry.1 = old) :
    (entries.map fun entry => (change entry.1, entry.2)).lookup key = entries.lookup old := by
  induction entries with
  | nil => rfl
  | cons entry rest ih =>
    obtain ⟨other, value⟩ := entry
    have hrest := ih fun entry hentry => h entry (List.mem_cons_of_mem _ hentry)
    have hiff := h (other, value) (List.mem_cons_self ..)
    simp only at hiff
    by_cases hold : other = old
    · rw [List.map_cons, hiff.2 hold, hold]
      simp
    · have hne : change other ≠ key := fun heq => hold (hiff.1 heq)
      rw [List.map_cons, List.lookup_cons, List.lookup_cons, beq_eq_false_iff_ne.2 hne.symm,
        beq_eq_false_iff_ne.2 (Ne.symm hold)]
      exact hrest

theorem lookup_map_key_eq_none {change : κ → κ} {key : κ} {entries : List (κ × ν)}
    (h : ∀ entry ∈ entries, change entry.1 ≠ key) :
    (entries.map fun entry => (change entry.1, entry.2)).lookup key = none := by
  rw [List.lookup_eq_none_iff]
  intro entry hentry
  obtain ⟨old, hold, rfl⟩ := List.mem_map.1 hentry
  simpa using (h old hold).symm

end Lookup

/-! ## Places -/

variable {disk : Disk} {place other source target : Place} {item : Item}

theorem item?_of_ne (h : place ≠ []) : disk.item? place = disk.items.lookup place := by
  rw [item?, if_neg h]

theorem item?_put (hplace : place ≠ []) :
    (disk.put place item).item? other = if other = place then some item else disk.item? other := by
  by_cases hroot : other = []
  · subst hroot
    rw [if_neg (Ne.symm hplace), item?, item?, if_pos rfl, if_pos rfl]
  · rw [item?_of_ne hroot, item?_of_ne hroot, put, List.lookup_cons]
    by_cases hother : other = place
    · simp [hother]
    · rw [beq_eq_false_iff_ne.2 hother, if_neg hother,
        lookup_filter_key (fun key => key != place) disk.items other,
        if_pos (by simpa using hother)]

theorem item?_erase (hplace : place ≠ []) :
    (disk.erase place).item? other = if place <+: other then none else disk.item? other := by
  by_cases hroot : other = []
  · subst hroot
    rw [if_neg (by simpa using hplace), item?, item?, if_pos rfl, if_pos rfl]
  · rw [item?_of_ne hroot, item?_of_ne hroot, erase,
      lookup_filter_key (fun key => !place.isPrefixOf key) disk.items other]
    by_cases hbelow : place.isPrefixOf other
    · rw [if_neg (by simp [hbelow]), if_pos (List.isPrefixOf_iff_prefix.1 hbelow)]
    · rw [if_pos (by simp [hbelow]), if_neg fun h => hbelow (List.isPrefixOf_iff_prefix.2 h)]

/-! ## Moving -/

/-- The place that an item has after it was moved. -/
def moved (source target place : Place) : Place :=
  if source.isPrefixOf place then target ++ place.drop source.length else place

theorem moved_append (source target below : Place) :
    moved source target (source ++ below) = target ++ below := by
  rw [moved, if_pos (List.isPrefixOf_iff_prefix.2 (List.prefix_append _ _)), List.drop_left]

theorem moved_of_not_below (h : ¬ source <+: place) : moved source target place = place := by
  rw [moved, if_neg fun hbelow => h (List.isPrefixOf_iff_prefix.1 hbelow)]

theorem move_eq (disk : Disk) (source target : Place) :
    disk.move source target =
      ⟨disk.items.map fun entry => (moved source target entry.1, entry.2)⟩ := by
  rw [move]
  congr 1
  refine List.map_congr_left fun ⟨place, item⟩ _ => ?_
  simp only [moved]
  split <;> rfl

/-- The disk with an item in place of what was in another place. -/
def replace (disk : Disk) (source target : Place) : Disk :=
  (disk.erase target).move source target

/-- Two places neither of which lies below the other. -/
structure Apart (source target : Place) : Prop where
  not_below : ¬ source <+: target
  not_above : ¬ target <+: source

theorem Apart.source_ne_nil (h : Apart source target) : source ≠ [] := by
  rintro rfl
  exact h.not_below (List.nil_prefix ..)

theorem Apart.target_ne_nil (h : Apart source target) : target ≠ [] := by
  rintro rfl
  exact h.not_above (List.nil_prefix ..)

theorem not_prefix_of_mem_erase {entry : Place × Item} (h : entry ∈ (disk.erase target).items) :
    ¬ target <+: entry.1 := by
  have hkept := (List.mem_filter.1 h).2
  rw [Bool.not_eq_true'] at hkept
  intro hbelow
  rw [List.isPrefixOf_iff_prefix.2 hbelow] at hkept
  cases hkept

theorem item?_replace_target (h : Apart source target) :
    (disk.replace source target).item? target = disk.item? source := by
  rw [replace, move_eq, item?_of_ne h.target_ne_nil, lookup_map_key source,
    ← item?_of_ne h.source_ne_nil, item?_erase h.target_ne_nil, if_neg h.not_above]
  intro entry hentry
  constructor
  · intro hmoved
    by_cases hsource : source <+: entry.1
    · obtain ⟨below, hbelow⟩ := hsource
      rw [← hbelow, moved_append, List.append_right_eq_self] at hmoved
      rw [← hbelow, hmoved, List.append_nil]
    · rw [moved_of_not_below hsource] at hmoved
      exact absurd (hmoved ▸ List.prefix_refl _) (not_prefix_of_mem_erase hentry)
  · intro hsource
    have hself := moved_append source target []
    rw [List.append_nil, List.append_nil] at hself
    rw [hsource, hself]

theorem item?_replace_source (h : Apart source target) :
    (disk.replace source target).item? source = none := by
  rw [replace, move_eq, item?_of_ne h.source_ne_nil]
  refine lookup_map_key_eq_none fun entry _ hmoved => ?_
  by_cases hsource : source <+: entry.1
  · obtain ⟨below, hbelow⟩ := hsource
    rw [← hbelow, moved_append] at hmoved
    exact h.not_above (hmoved ▸ List.prefix_append _ _)
  · rw [moved_of_not_below hsource] at hmoved
    exact hsource (hmoved ▸ List.prefix_refl _)

theorem item?_replace_of_apart (h : Apart source target) (hsource : ¬ source <+: other)
    (htarget : ¬ target <+: other) :
    (disk.replace source target).item? other = disk.item? other := by
  by_cases hroot : other = []
  · rw [hroot, item?, item?, if_pos rfl, if_pos rfl]
  · have herase : (disk.erase target).item? other = disk.item? other := by
      rw [item?_erase h.target_ne_nil, if_neg htarget]
    rw [replace, move_eq, item?_of_ne hroot, lookup_map_key other, ← item?_of_ne hroot,
      herase]
    intro entry _
    by_cases hmoved : source <+: entry.1
    · obtain ⟨below, hbelow⟩ := hmoved
      rw [← hbelow, moved_append]
      constructor
      · rintro rfl
        exact absurd (List.prefix_append _ _) htarget
      · rintro rfl
        exact absurd (List.prefix_append _ _) hsource
    · rw [moved_of_not_below hmoved]

end PocketShell.Disk
