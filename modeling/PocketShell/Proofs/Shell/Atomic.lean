import PocketShell.Proofs.Shell.Reachable

/-!
# Lines fail without a trace

A line that shows an error has failed, and all that is left of it is its place in the history. This
rests on every command of the shell: each of them has looked at everything that can go wrong before
it changes the machine.
-/

namespace PocketShell

open PocketShell.Change (Atomic)
open Time (Stamp)

namespace Outcome

/-- An error is shown. -/
def failed (outcome : Outcome) : Bool :=
  outcome.lines.any (·.kind = .error)

variable {input : TerminalLine}

theorem failed_ofOutput (h : input.kind ≠ .error) (output : Command.Output) :
    (ofOutput input output).failed = false := by
  cases output with
  | text text =>
    rw [ofOutput, ofText]
    split <;> simp [failed, h]
  | clear => rfl
  | exit => simp [ofOutput, failed, h]

end Outcome

namespace Shell

variable {shell : Shell}

theorem Standard.atomic_dispatch (h : shell.Standard) (now : Stamp) (history : History)
    (line : CommandLine) : Atomic (shell.registry.dispatch now history line) := by
  refine Registry.atomic_dispatch (fun command hcommand around invocation => ?_) now history line
  rw [h] at hcommand
  refine Command.Builtin.atomic_run around invocation ?_
  exact (Registry.mem_foldl_register hcommand).resolve_left List.not_mem_nil

/-- All that a failed line leaves is its place in the history. -/
theorem Standard.execute_of_failed (h : shell.Standard) {now : Stamp} {text : String}
    (hfailed : (shell.execute now text).2.failed) :
    (shell.execute now text).1 =
      { shell with history := shell.history.record (Text.trim text) } := by
  by_cases hblank : (Text.trim text).isEmpty
  · simp [execute_of_blank hblank, Outcome.failed, Outcome.empty] at hfailed
  · rw [execute_eq hblank] at hfailed ⊢
    cases hrun : (shell.registry.dispatch now (shell.history.record (Text.trim text))
      (lineOf text)).run shell.machine with
    | ok output machine =>
      rw [hrun] at hfailed
      have hshown : (shell.shown text).kind ≠ .error := by simp [shown]
      exact absurd hfailed (by simp [Outcome.failed_ofOutput hshown])
    | error fault machine =>
      simp [h.atomic_dispatch _ _ _ _ _ _ hrun]

/-- Failures leave nothing behind. A line of any shell that shows an error changes its history only;
and no operation on a tree or on a process table that fails has changed anything. -/
theorem failures_atomic :
    (∀ (clock : Nat → Stamp) (id user : String) (events : List Event) (now : Stamp) (text : String)
      (shell : Shell), shell = (startAt clock id user).run events →
        (shell.execute now text).2.failed →
          (shell.execute now text).1 =
            { shell with history := shell.history.record (Text.trim text) }) ∧
      (∀ operation : Filesystem.Operation, Atomic operation.change) ∧
        ∀ operation : ProcessTable.Operation, Atomic operation.change := by
  refine ⟨fun clock id user events now text shell hshell hfailed => ?_,
    Filesystem.Operation.atomic, ProcessTable.Operation.atomic⟩
  subst hshell
  exact (standard_run_startAt clock id user events).execute_of_failed hfailed

/-- A shell in which a directory was made, before it went to the homes. -/
def shellWithDirectory : Shell :=
  (startAt (fun n => .ofNanoseconds n) "1" "guest").run
    [.execute (.ofNanoseconds 10) "mkdir a", .execute (.ofNanoseconds 11) "cd /home/guest/.."]

/-- A directory is refused a name that is taken. -/
theorem failures_atomic_guest :
    (shellWithDirectory.execute (.ofNanoseconds 12) "mkdir guest").2.failed ∧
      (shellWithDirectory.execute (.ofNanoseconds 12) "mkdir guest").1 =
        { shellWithDirectory with
          history := shellWithDirectory.history.record (Text.trim "mkdir guest") } := by
  have hfailed : (shellWithDirectory.execute (.ofNanoseconds 12) "mkdir guest").2.failed := by
    decide +kernel
  exact ⟨hfailed, failures_atomic.1 _ _ _ _ _ _ _ rfl hfailed⟩

end Shell

end PocketShell
