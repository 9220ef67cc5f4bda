import PocketShell.Proofs.ProcessTable.Operation
import Mathlib.Data.List.Nodup

/-!
# Operations change one process

An operation that names a process changes the first process of that identifier, or takes it from the
table. Where no two processes have one identifier, every other process stays as it was, at its place
among the others.
-/

namespace PocketShell.ProcessTable

variable {table : ProcessTable} {operation : Operation} {id : String} {process : ProcessEntry}
  {processes earlier later : List ProcessEntry}

/-! ## The first process of an identifier -/

/-- No process has the identifier. -/
def Lacks (id : String) (processes : List ProcessEntry) : Prop :=
  ∀ process ∈ processes, process.id ≠ id

theorem modifyFirst_append (h : Lacks id earlier) (hid : process.id = id)
    (f : ProcessEntry → ProcessEntry) :
    modifyFirst id f (earlier ++ process :: later) = earlier ++ f process :: later := by
  induction earlier with
  | nil => rw [List.nil_append, modifyFirst, if_pos hid, List.nil_append]
  | cons first rest ih =>
    rw [List.cons_append, modifyFirst, if_neg (h first List.mem_cons_self),
      ih fun other hother => h other (List.mem_cons_of_mem _ hother), List.cons_append]

theorem Lacks.filter_eq (h : Lacks id processes) :
    processes.filter (·.id != id) = processes :=
  List.filter_eq_self.2 fun other hother => bne_iff_ne.2 (h other hother)

theorem byId?_eq_none : table.byId? id = none ↔ Lacks id table.processes := by
  simp [byId?, Lacks]

theorem byId?_eq_some :
    table.byId? id = some process ↔ process.id = id ∧ ∃ earlier later,
      table.processes = earlier ++ process :: later ∧ Lacks id earlier := by
  simp [byId?, List.find?_eq_some_iff_append, Lacks]

theorem exists_byId? (h : process ∈ table.processes) :
    ∃ found, table.byId? process.id = some found :=
  Option.isSome_iff_exists.1 (List.find?_isSome.2 ⟨process, h, beq_self_eq_true process.id⟩)

/-! ## Operations about one process -/

namespace Operation

/-- The identifier of the process that an operation is about, if it is about one. -/
def target? : Operation → Option String
  | stop id | print id _ | kill _ id => some id
  | start .. | clear => none

/-- The process that an operation on a table starts. -/
def started? (table : ProcessTable) : Operation → Option ProcessEntry
  | start id now name command output => some (table.nextProcess id now name command output)
  | stop _ | print _ _ | kill _ _ | clear => none

/-- What an operation about a process leaves of it in the table. -/
def remnant? : Operation → ProcessEntry → Option ProcessEntry
  | stop _, process => some process.stop
  | print _ text, process => some (process.print text)
  | kill now _, process => if process.isProtected then some (process.finish now) else none
  | start .., process | clear, process => some process

/-- What an operation about a process leaves of those behind it: if the process goes, all others of
its identifier go with it. -/
def behind (operation : Operation) (process : ProcessEntry) (later : List ProcessEntry) :
    List ProcessEntry :=
  if (operation.remnant? process).isSome then later else later.filter (·.id != process.id)

theorem behind_of_lacks (h : Lacks process.id later) :
    operation.behind process later = later := by
  rw [behind, h.filter_eq, ite_self]

theorem behind_sublist (operation : Operation) (process : ProcessEntry)
    (later : List ProcessEntry) : (operation.behind process later).Sublist later := by
  rw [behind]
  split
  · exact .refl _
  · exact List.filter_sublist

end Operation

/-- Whoever looks for a process first does nothing where there is none. -/
theorem after_find_bind (next : ProcessEntry → Change) :
    (Change.reading (·.find id) >>= next).after table = match table.byId? id with
      | some process => (next process).after table
      | none => table := by
  rw [Change.after_reading_bind, find]
  cases table.byId? id <;> rfl

theorem after_of_lacks (htarget : operation.target? = some id) (h : Lacks id table.processes) :
    table.after operation = table := by
  have hnone := byId?_eq_none.2 h
  cases operation with
  | stop | print | kill =>
    cases htarget
    exact (after_find_bind _).trans (by rw [hnone])
  | start | clear => cases htarget

/-- An operation about a process works on the first of its identifier. -/
theorem after_of_found (htarget : operation.target? = some process.id)
    (h : table.processes = earlier ++ process :: later) (hearlier : Lacks process.id earlier) :
    table.after operation = { table with
      processes := earlier ++ (operation.remnant? process).toList ++
        operation.behind process later } := by
  have hfound := byId?_eq_some.2 ⟨rfl, earlier, later, h, hearlier⟩
  have halter : ∀ f, table.alter process.id f =
      { table with processes := earlier ++ f process :: later } := by
    intro f
    rw [alter, h, modifyFirst_append hearlier rfl]
  cases operation with
  | stop | print =>
    cases htarget
    refine (after_find_bind _).trans ?_
    rw [hfound]
    refine (halter _).trans ?_
    simp [Operation.remnant?, Operation.behind]
  | kill now id =>
    cases htarget
    refine (after_find_bind _).trans ?_
    rw [hfound]
    dsimp only
    rw [Change.after_bind]
    by_cases hprotected : process.isProtected
    · rw [if_pos hprotected]
      refine (halter _).trans ?_
      simp [Operation.remnant?, Operation.behind, hprotected]
    · rw [if_neg hprotected]
      refine (congrArg (fun table : ProcessTable =>
        { table with processes := table.processes.filter (·.id != process.id) })
        (halter _)).trans ?_
      have hid : (process.finish now).id = process.id := rfl
      simp [Operation.remnant?, Operation.behind, hprotected, hid, hearlier.filter_eq]
  | start | clear => cases htarget

theorem nextPid_after (htarget : operation.target? = some id) :
    (table.after operation).nextPid = table.nextPid := by
  cases hfound : table.byId? id with
  | none => rw [after_of_lacks htarget (byId?_eq_none.1 hfound)]
  | some process =>
    obtain ⟨rfl, earlier, later, hplace, hearlier⟩ := byId?_eq_some.1 hfound
    rw [after_of_found htarget hplace hearlier]

/-- What holds of every process listed goes on to hold, if it holds of a process that is started and
of what is left of one that is changed. -/
theorem forall_after {p : ProcessEntry → Prop} (h : ∀ process ∈ table.processes, p process)
    (hstarted : ∀ process, operation.started? table = some process → p process)
    (hremnant : ∀ target process remnant, operation.target? = some target →
      table.byId? target = some process → operation.remnant? process = some remnant → p remnant) :
    ∀ process ∈ (table.after operation).processes, p process := by
  intro process hmem
  cases htarget : operation.target? with
  | none =>
    cases operation with
    | start id now name command output =>
      rcases List.mem_append.1 hmem with hmem | hmem
      · exact h process hmem
      · exact hstarted process (congrArg some (List.mem_singleton.1 hmem).symm)
    | clear => exact h process (List.mem_filter.1 hmem).1
    | stop | print | kill => cases htarget
  | some target =>
    cases hfound : table.byId? target with
    | none =>
      rw [after_of_lacks htarget (byId?_eq_none.1 hfound)] at hmem
      exact h process hmem
    | some found =>
      have hleft := fun remnant => hremnant target found remnant htarget hfound
      obtain ⟨rfl, earlier, later, hplace, hearlier⟩ := byId?_eq_some.1 hfound
      rw [after_of_found htarget hplace hearlier, List.append_assoc] at hmem
      rw [hplace] at h
      rcases List.mem_append.1 hmem with hmem | hmem
      · exact h process (List.mem_append_left _ hmem)
      rcases List.mem_append.1 hmem with hmem | hmem
      · exact hleft process (Option.mem_toList.1 hmem)
      · exact h process (List.mem_append_right _ (List.mem_cons_of_mem _
          ((Operation.behind_sublist _ _ later).subset hmem)))

/-- An operation about a process has changed or removed that process alone, or there is none. -/
inductive Replaces (operation : Operation) (id : String) (table : ProcessTable) :
    ProcessTable → Prop
  | absent (h : Lacks id table.processes) : Replaces operation id table table
  | present {earlier later : List ProcessEntry} {process : ProcessEntry}
    (hplace : table.processes = earlier ++ process :: later) (hid : process.id = id)
    (hothers : Lacks id (earlier ++ later)) :
    Replaces operation id table
      { table with processes := earlier ++ (operation.remnant? process).toList ++ later }

theorem lacks_of_nodup (h : ((earlier ++ process :: later).map ProcessEntry.id).Nodup) :
    Lacks process.id (earlier ++ later) := by
  intro other hother hid
  rw [List.map_append, List.map_cons, List.nodup_middle, ← List.map_append] at h
  exact (List.nodup_cons.1 h).1 (List.mem_map.2 ⟨other, hother, hid⟩)

theorem replaces_after (hnodup : (table.processes.map ProcessEntry.id).Nodup)
    (htarget : operation.target? = some id) :
    Replaces operation id table (table.after operation) := by
  cases hfound : table.byId? id with
  | none =>
    have habsent := byId?_eq_none.1 hfound
    rw [after_of_lacks htarget habsent]
    exact .absent habsent
  | some process =>
    obtain ⟨rfl, earlier, later, hplace, hearlier⟩ := byId?_eq_some.1 hfound
    have hothers : Lacks process.id (earlier ++ later) := lacks_of_nodup (hplace ▸ hnodup)
    rw [after_of_found htarget hplace hearlier, Operation.behind_of_lacks fun other hother =>
      hothers other (List.mem_append_right _ hother)]
    exact .present hplace rfl hothers

/-- The process, and nothing else, has been taken from the table. -/
def Loses (process : ProcessEntry) (table changed : ProcessTable) : Prop :=
  ∃ earlier later, table.processes = earlier ++ process :: later ∧
    changed = { table with processes := earlier ++ later }

theorem loses_after_kill (hnodup : (table.processes.map ProcessEntry.id).Nodup)
    (hmem : process ∈ table.processes) (hunprotected : process.isProtected = false)
    (now : Time.Stamp) : Loses process table (table.after (.kill now process.id)) := by
  obtain ⟨earlier, later, hplace⟩ := List.append_of_mem hmem
  have hothers := lacks_of_nodup (hplace ▸ hnodup)
  refine ⟨earlier, later, hplace, ?_⟩
  rw [after_of_found rfl hplace fun other hother => hothers other (List.mem_append_left _ hother),
    Operation.behind_of_lacks fun other hother => hothers other (List.mem_append_right _ hother)]
  simp [Operation.remnant?, hunprotected]

/-- Nothing but processes that are not protected has been taken from the table. -/
structure Spared (table changed : ProcessTable) : Prop where
  sublist : changed.processes.Sublist table.processes
  kept : changed.processes.filter ProcessEntry.isProtected =
    table.processes.filter ProcessEntry.isProtected
  nextPid : changed.nextPid = table.nextPid

theorem Spared.refl (table : ProcessTable) : Spared table table :=
  ⟨.refl _, rfl, rfl⟩

theorem Spared.trans {changed last : ProcessTable} (h : Spared table changed)
    (h' : Spared changed last) : Spared table last :=
  ⟨h'.sublist.trans h.sublist, h'.kept.trans h.kept, h'.nextPid.trans h.nextPid⟩

theorem Loses.spared {changed : ProcessTable} (h : Loses process table changed)
    (hunprotected : process.isProtected = false) : Spared table changed := by
  obtain ⟨earlier, later, hplace, rfl⟩ := h
  constructor
  · rw [hplace]
    exact (List.sublist_cons_self process later).append_left earlier
  · simp [hplace, hunprotected]
  · rfl

theorem Loses.mem {changed : ProcessTable} {other : ProcessEntry}
    (h : Loses process table changed) (hmem : other ∈ table.processes) (hother : other ≠ process) :
    other ∈ changed.processes := by
  obtain ⟨earlier, later, hplace, rfl⟩ := h
  simpa [hplace, hother] using hmem

end PocketShell.ProcessTable
