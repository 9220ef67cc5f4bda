import PocketShell.Proofs.ProcessTable.Locality
import Mathlib.Data.List.Pairwise

/-!
# Process tables that operations lead to

The processes of a run are numbered in the order in which they are started. The table lists some of
them, in that order, and the process of the system always comes first. This needs identifiers that
are chosen afresh and no more processes than there are pids; then a process is found both by its pid
and by its identifier, and an operation on one leaves all others alone.
-/

namespace PocketShell

open Time (Stamp)

/-- What a process is known by: its identifier and its pid. -/
def ProcessEntry.key (process : ProcessEntry) : String × Nat :=
  (process.id, process.pid)

namespace ProcessTable

/-! ## Processes that are started -/

namespace Operation

/-- The identifier under which an operation starts a process. -/
def startId? : Operation → Option String
  | start id .. => some id
  | stop _ | print _ _ | kill _ _ | clear => none

end Operation

/-- The processes that some operations start, each as it is started. -/
def started (table : ProcessTable) : List Operation → List ProcessEntry
  | [] => []
  | operation :: rest => (operation.started? table).toList ++ (table.after operation).started rest

/-- The identifiers under which processes are started, that of the system first. -/
def identifiers (id : String) (operations : List Operation) : List String :=
  id :: operations.flatMap (·.startId?.toList)

/-- The identifiers are chosen afresh, and there is a pid other than 0 for each of them. -/
structure Fresh (ids : List String) : Prop where
  nodup : ids.Nodup
  length_lt : ids.length < pidCount

theorem Fresh.of_append {ids more : List String} (h : Fresh (ids ++ more)) : Fresh ids := by
  refine ⟨h.nodup.of_append_left, Nat.lt_of_le_of_lt ?_ h.length_lt⟩
  rw [List.length_append]
  exact Nat.le_add_right _ _

/-! ## The invariant -/

/-- The table lists processes that were started under `ids`, each with the pid of its turn, and that
of the system before all others. -/
structure Numbered (ids : List String) (table : ProcessTable) : Prop where
  keys : (table.processes.map ProcessEntry.key).Sublist (ids.zipIdx 1)
  nextPid : table.nextPid = (ids.length + 1) % pidCount
  system : ∃ system others, table.processes = system :: others ∧
    system.pid = 1 ∧ system.name = "system-init"

variable {table : ProcessTable} {operation : Operation} {id target : String} {ids : List String}
  {now : Stamp} {operations : List Operation} {process : ProcessEntry}

theorem numbered_boot (id : String) (now : Stamp) : Numbered [id] (boot id now) :=
  ⟨.refl _, rfl, _, [], rfl, rfl, rfl⟩

namespace Numbered

theorem pids_sublist (h : Numbered ids table) :
    (table.processes.map ProcessEntry.pid).Sublist (List.range' 1 ids.length) := by
  have hpids := h.keys.map Prod.snd
  rwa [List.map_map, List.zipIdx_map_snd] at hpids

theorem ids_sublist (h : Numbered ids table) :
    (table.processes.map ProcessEntry.id).Sublist ids := by
  have hids := h.keys.map Prod.fst
  rwa [List.map_map, List.zipIdx_map_fst] at hids

theorem increasing (h : Numbered ids table) : table.processes.Pairwise (·.pid < ·.pid) :=
  List.pairwise_map.1 (List.Pairwise.sublist h.pids_sublist List.pairwise_lt_range')

theorem nodup_pid (h : Numbered ids table) : (table.processes.map ProcessEntry.pid).Nodup :=
  List.Nodup.sublist h.pids_sublist List.nodup_range'

theorem nodup_id (h : Numbered ids table) (hids : ids.Nodup) :
    (table.processes.map ProcessEntry.id).Nodup :=
  List.Nodup.sublist h.ids_sublist hids

/-- The next pid is the number of the next process, as long as there are pids. -/
theorem nextPid_eq (h : Numbered ids table) (hroom : ids.length + 1 < pidCount) :
    table.nextPid = ids.length + 1 := by
  rw [h.nextPid, Nat.mod_eq_of_lt hroom]

theorem pid_lt (h : Numbered ids table) (hroom : ids.length + 1 < pidCount)
    (hmem : process ∈ table.processes) : process.pid < table.nextPid := by
  have hrange := List.mem_range'_1.1 (h.pids_sublist.subset (List.mem_map_of_mem hmem))
  rw [h.nextPid_eq hroom]
  omega

theorem start (h : Numbered ids table) (hroom : ids.length + 1 < pidCount) (id : String)
    (now : Stamp) (name command output : String) :
    Numbered (ids ++ [id]) (table.start id now name command output) := by
  refine ⟨?_, ?_, ?_⟩
  · rw [ProcessTable.start, List.map_append, List.zipIdx_append]
    refine h.keys.append ?_
    rw [List.map_singleton, List.zipIdx_singleton, ProcessEntry.key, nextProcess,
      h.nextPid_eq hroom, Nat.add_comm 1]
  · rw [ProcessTable.start, h.nextPid_eq hroom, List.length_append, List.length_singleton]
  · obtain ⟨system, others, hlist, hsystem⟩ := h.system
    refine ⟨system, others ++ [table.nextProcess id now name command output], ?_, hsystem⟩
    rw [ProcessTable.start, hlist, List.cons_append]

end Numbered

/-- An operation about a process changes neither its name nor what it is known by. -/
theorem same_of_mem_remnant? {remnant : ProcessEntry}
    (h : operation.remnant? process = some remnant) :
    remnant.key = process.key ∧ remnant.name = process.name := by
  cases operation with
  | start | clear | stop | print =>
    cases h
    exact ⟨rfl, rfl⟩
  | kill now id =>
    rw [Operation.remnant?] at h
    split at h <;> cases h
    exact ⟨rfl, rfl⟩

/-- A protected process stays in the table. -/
theorem remnant?_of_protected (h : process.isProtected) (operation : Operation) :
    ∃ remnant, operation.remnant? process = some remnant := by
  cases operation <;> simp [Operation.remnant?, h]

theorem isProtected_of_name (h : process.name = "system-init") : process.isProtected := by
  rw [ProcessEntry.isProtected, h]
  decide

theorem Numbered.replaces {changed : ProcessTable} (h : Numbered ids table)
    (hreplaces : Replaces operation target table changed) : Numbered ids changed := by
  cases hreplaces with
  | absent => exact h
  | @present earlier later process hplace hid hothers =>
    have hremnant : ((operation.remnant? process).toList.map ProcessEntry.key).Sublist
        [process.key] := by
      cases hleft : operation.remnant? process with
      | none => exact List.nil_sublist _
      | some remnant =>
        rw [Option.toList_some, List.map_singleton, (same_of_mem_remnant? hleft).1]
    refine ⟨.trans ?_ h.keys, h.nextPid, ?_⟩
    · rw [hplace, List.append_assoc, List.map_append, List.map_append, List.map_append,
        List.map_cons]
      exact (hremnant.append (.refl _)).append_left _
    · obtain ⟨system, others, hlist, hpid, hname⟩ := h.system
      rw [hplace] at hlist
      cases earlier with
      | nil =>
        -- The process of the system is the one that the operation is about.
        cases hlist
        obtain ⟨remnant, hleft⟩ := remnant?_of_protected (isProtected_of_name hname) operation
        obtain ⟨hkey, hsame⟩ := same_of_mem_remnant? hleft
        refine ⟨remnant, later, ?_, (congrArg Prod.snd hkey).trans hpid, hsame.trans hname⟩
        rw [hleft]
        rfl
      | cons first rest =>
        cases hlist
        exact ⟨system, _, rfl, hpid, hname⟩

theorem Numbered.clear (h : Numbered ids table) : Numbered ids table.clear := by
  refine ⟨(List.filter_sublist.map _).trans h.keys, h.nextPid, ?_⟩
  obtain ⟨system, others, hlist, hpid, hname⟩ := h.system
  refine ⟨system, others.filter ProcessEntry.isProtected, ?_, hpid, hname⟩
  rw [ProcessTable.clear, hlist, List.filter_cons_of_pos (isProtected_of_name hname)]

theorem Numbered.after (h : Numbered ids table)
    (hfresh : Fresh (ids ++ operation.startId?.toList)) :
    Numbered (ids ++ operation.startId?.toList) (table.after operation) := by
  have hnodup := h.nodup_id hfresh.of_append.nodup
  cases operation with
  | start id now name command output =>
    refine h.start ?_ id now name command output
    simpa [Operation.startId?] using hfresh.length_lt
  | stop | print | kill =>
    rw [Operation.startId?, Option.toList_none, List.append_nil]
    exact h.replaces (replaces_after hnodup rfl)
  | clear =>
    rw [Operation.startId?, Option.toList_none, List.append_nil]
    exact h.clear

/-- What is numbered goes on being so, and what is started bears the next numbers. -/
theorem Numbered.run (h : Numbered ids table)
    (hfresh : Fresh (ids ++ operations.flatMap (·.startId?.toList))) :
    Numbered (ids ++ operations.flatMap (·.startId?.toList)) (table.run operations) ∧
      (table.started operations).map ProcessEntry.key =
        (operations.flatMap (·.startId?.toList)).zipIdx (ids.length + 1) := by
  induction operations generalizing ids table with
  | nil =>
    rw [List.flatMap_nil, List.append_nil]
    exact ⟨h, rfl⟩
  | cons operation rest ih =>
    rw [List.flatMap_cons, ← List.append_assoc] at hfresh ⊢
    obtain ⟨hrun, hstarted⟩ := ih (h.after hfresh.of_append) hfresh
    refine ⟨hrun, ?_⟩
    rw [started, List.map_append, hstarted, List.zipIdx_append]
    cases operation with
    | start id now name command output =>
      have hnext : table.nextPid = ids.length + 1 := h.nextPid_eq <| by
        simpa [Operation.startId?] using hfresh.of_append.length_lt
      simp [Operation.started?, Operation.startId?, ProcessEntry.key, nextProcess, hnext]
    | stop | print | kill | clear => simp [Operation.started?, Operation.startId?]

theorem numbered_run (h : Fresh (identifiers id operations)) :
    Numbered (identifiers id operations) ((boot id now).run operations) :=
  ((numbered_boot id now).run h).1

/-! ## What the invariant says -/

theorem find?_eq_some_of_nodup_map {α β : Type} [BEq β] [LawfulBEq β] {f : α → β} {xs : List α}
    {x : α} (hnodup : (xs.map f).Nodup) (hmem : x ∈ xs) : xs.find? (f · == f x) = some x := by
  cases hfind : xs.find? (f · == f x) with
  | none => exact absurd (List.find?_eq_none.1 hfind x hmem) (by simp)
  | some found =>
    have hsame : f found = f x := by simpa using List.find?_some hfind
    rw [List.inj_on_of_nodup_map hnodup (List.mem_of_find?_eq_some hfind) hmem hsame]

/-- All that can be told of a table from the processes that were ever started. -/
structure Orderly (started : List ProcessEntry) (table : ProcessTable) : Prop where
  increasing : table.processes.Pairwise (·.pid < ·.pid)
  below : ∀ process ∈ table.processes, process.pid < table.nextPid
  /-- The pids that were ever given are the numbers from one on, each given once. -/
  given : started.map ProcessEntry.pid = List.range' 1 started.length
  counted : table.nextPid = started.length + 1
  system : ∃ system others, table.processes = system :: others ∧
    system.pid = 1 ∧ system.name = "system-init" ∧ system.isProtected
  byPid : ∀ process ∈ table.processes, table.byPid? process.pid = some process
  byId : ∀ process ∈ table.processes, table.byId? process.id = some process

theorem Numbered.orderly {started : List ProcessEntry} (h : Numbered ids table)
    (hnodup : ids.Nodup) (hroom : ids.length + 1 < pidCount)
    (hstarted : started.map ProcessEntry.key = ids.zipIdx 1) :
    Orderly started table := by
  have hlength : started.length = ids.length := by
    simpa using congrArg List.length hstarted
  refine ⟨h.increasing, fun process => h.pid_lt hroom, ?_, ?_, ?_, fun process hmem => ?_,
    fun process hmem => ?_⟩
  · have hpids := congrArg (List.map Prod.snd) hstarted
    rwa [List.map_map, List.zipIdx_map_snd, ← hlength] at hpids
  · rw [h.nextPid_eq hroom, hlength]
  · obtain ⟨system, others, hlist, hpid, hname⟩ := h.system
    exact ⟨system, others, hlist, hpid, hname, isProtected_of_name hname⟩
  · exact find?_eq_some_of_nodup_map h.nodup_pid hmem
  · exact find?_eq_some_of_nodup_map (h.nodup_id hnodup) hmem

/-- In every run whose identifiers are chosen afresh and that starts no more processes than there
are pids for, the table is in order, and an operation about one process changes or removes that
process alone. -/
theorem orderly_run (hnodup : (identifiers id operations).Nodup)
    (hlength : (identifiers id operations).length ≤ pidCount - 2) :
    Orderly ((boot id now).processes ++ (boot id now).started operations)
        ((boot id now).run operations) ∧
      ∀ operation target, operation.target? = some target →
        Replaces operation target ((boot id now).run operations)
          (((boot id now).run operations).after operation) := by
  have hroom : (identifiers id operations).length + 1 < pidCount := by
    rw [pidCount] at hlength ⊢
    omega
  obtain ⟨hnumbered, hstarted⟩ := (numbered_boot id now).run ⟨hnodup, Nat.lt_of_succ_lt hroom⟩
  refine ⟨hnumbered.orderly hnodup hroom ?_, fun operation target htarget =>
    replaces_after (hnumbered.nodup_id hnodup) htarget⟩
  rw [List.map_append, hstarted]
  rfl

/-- A job is killed, a helper is protected by its name, and an editor is started after that. -/
def sampleOperations : List Operation :=
  [.start "b" (.ofNanoseconds 1) "job" "sleep" "",
    .start "c" (.ofNanoseconds 2) "systemd" "help" "", .kill (.ofNanoseconds 3) "b",
    .start "d" (.ofNanoseconds 4) "editor" "vim" "", .clear]

/-- The helper is listed behind the process of the system, and the pids of the others stay given. -/
theorem orderly_run_sample :
    (identifiers "a" sampleOperations).Nodup ∧
      (identifiers "a" sampleOperations).length ≤ pidCount - 2 ∧
      Orderly ((boot "a" (.ofNanoseconds 0)).processes ++
          (boot "a" (.ofNanoseconds 0)).started sampleOperations)
        ((boot "a" (.ofNanoseconds 0)).run sampleOperations) ∧
      ((boot "a" (.ofNanoseconds 0)).run sampleOperations).processes.map ProcessEntry.pid = [1, 3] ∧
      ((boot "a" (.ofNanoseconds 0)).run sampleOperations).nextPid = 5 := by
  have hnodup : (identifiers "a" sampleOperations).Nodup := by decide
  have hlength : (identifiers "a" sampleOperations).length ≤ pidCount - 2 := by decide
  exact ⟨hnodup, hlength, (orderly_run hnodup hlength).1, by decide, by decide⟩

end ProcessTable

end PocketShell
