import PocketShell.Proofs.ProcessTable.Locality
import Mathlib.Data.List.Induction

/-!
# When processes end

A process is finished when it is killed, and the time of that is recorded with it. A protected
process stays listed after that, and one that is then stopped reads as stopped though its end is
recorded. If nobody stops a finished process, a listed process has an end if and only if it is
finished.
-/

namespace PocketShell

open Time (Stamp)

/-- The end of the process is recorded if and only if the process is finished. -/
def ProcessEntry.Consistent (process : ProcessEntry) : Prop :=
  process.ended.isSome ↔ process.status = .finished

instance (process : ProcessEntry) : Decidable process.Consistent :=
  inferInstanceAs (Decidable (_ ↔ _))

namespace ProcessTable

variable {table : ProcessTable} {operation : Operation} {id : String} {now : Stamp}
  {operations : List Operation}

theorem run_concat (table : ProcessTable) (operations : List Operation) (operation : Operation) :
    table.run (operations ++ [operation]) = (table.run operations).after operation := by
  rw [run, List.foldl_append, List.foldl_cons, List.foldl_nil, run]

/-- The end of a process is recorded as soon as it is finished, and never forgotten. -/
theorem ended_after (h : ∀ process ∈ table.processes,
      process.status = .finished → process.ended.isSome) (operation : Operation) :
    ∀ process ∈ (table.after operation).processes,
      process.status = .finished → process.ended.isSome := by
  refine forall_after h (fun process hstarted => ?_) fun target process remnant _ hfound hleft => ?_
  · cases operation <;> cases hstarted
    exact fun hstatus => absurd hstatus (by simp [nextProcess])
  · have hprocess := h process (List.mem_of_find?_eq_some hfound)
    cases operation with
    | start | clear | print =>
      cases hleft
      exact hprocess
    | stop =>
      cases hleft
      exact fun hstatus => absurd hstatus (by simp [ProcessEntry.stop])
    | kill =>
      rw [Operation.remnant?] at hleft
      split at hleft <;> cases hleft
      exact fun _ => rfl

/-- Only stopping can make a process inconsistent, and only one that is finished. -/
theorem consistent_after (h : ∀ process ∈ table.processes, process.Consistent)
    (hstop : ∀ id process, operation = .stop id → table.byId? id = some process →
      process.status ≠ .finished) :
    ∀ process ∈ (table.after operation).processes, process.Consistent := by
  refine forall_after h (fun process hstarted => ?_)
    fun target process remnant htarget hfound hleft => ?_
  · cases operation <;> cases hstarted
    simp [ProcessEntry.Consistent, nextProcess]
  · have hprocess := h process (List.mem_of_find?_eq_some hfound)
    cases operation with
    | start | clear | print =>
      cases hleft
      exact hprocess
    | stop id =>
      cases hleft
      cases htarget
      have hended : process.ended.isSome = false :=
        Bool.eq_false_iff.2 fun hended => hstop _ process rfl hfound (hprocess.1 hended)
      simp [ProcessEntry.Consistent, ProcessEntry.stop, hended]
    | kill =>
      rw [Operation.remnant?] at hleft
      split at hleft <;> cases hleft
      simp [ProcessEntry.Consistent, ProcessEntry.finish]

/-- In every run the end of a finished process is recorded. If the run stops no finished process,
then only those of finished processes are. -/
theorem ended_run :
    (∀ process ∈ ((boot id now).run operations).processes,
      process.status = .finished → process.ended.isSome) ∧
    ((∀ earlier target later, operations = earlier ++ .stop target :: later →
        ∀ process, ((boot id now).run earlier).byId? target = some process →
          process.status ≠ .finished) →
      ∀ process ∈ ((boot id now).run operations).processes, process.Consistent) := by
  induction operations using List.reverseRecOn with
  | nil =>
    refine ⟨fun process hmem => ?_, fun _ process hmem => ?_⟩ <;>
      cases List.mem_singleton.1 hmem
    · exact fun hstatus => absurd hstatus (by simp [nextProcess])
    · simp [ProcessEntry.Consistent, nextProcess]
  | append_singleton operations operation ih =>
    rw [run_concat]
    refine ⟨ended_after ih.1 operation, fun hstop => consistent_after (ih.2 ?_) ?_⟩
    · intro earlier target later hsplit
      exact hstop earlier target (later ++ [operation]) (by simp [hsplit])
    · intro target process hlast hfound
      exact hstop operations target [] (by rw [hlast]) process hfound

/-- The process of the system is stopped, killed and printed to. -/
theorem ended_run_system :
    (∀ earlier target later,
      [.stop "a", .kill (.ofNanoseconds 1) "a", .print "a" "done"] =
          earlier ++ Operation.stop target :: later →
        ∀ process, ((boot "a" (.ofNanoseconds 0)).run earlier).byId? target = some process →
          process.status ≠ .finished) ∧
      ∀ process ∈ ((boot "a" (.ofNanoseconds 0)).run
          [.stop "a", .kill (.ofNanoseconds 1) "a", .print "a" "done"]).processes,
        process.Consistent := by
  have hstop : ∀ earlier target later,
      [.stop "a", .kill (.ofNanoseconds 1) "a", .print "a" "done"] =
          earlier ++ Operation.stop target :: later →
        ∀ process, ((boot "a" (.ofNanoseconds 0)).run earlier).byId? target = some process →
          process.status ≠ .finished := by
    intro earlier target later hsplit process hfound
    match earlier, hsplit with
    | [], hsplit =>
      cases hsplit
      cases hfound
      decide
    | [_, _, _, _], hsplit => simp at hsplit
  exact ⟨hstop, ended_run.2 hstop⟩

/-- A protected process that is stopped after it was killed reads as stopped, with its end. -/
theorem not_consistent_of_stop :
    ¬∀ (id : String) (now : Stamp) (operations : List Operation),
      ∀ process ∈ ((boot id now).run operations).processes, process.Consistent := by
  intro h
  have hsystem := h "a" (.ofNanoseconds 0) [.kill (.ofNanoseconds 1) "a", .stop "a"] _
    List.mem_cons_self
  exact absurd hsystem (by decide)

end ProcessTable

end PocketShell
