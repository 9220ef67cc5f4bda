import PocketShell.Proofs.Shell.Processes

/-!
# What a line leaves alone

Which parts of a shell a line can change is decided by its first word: `cd` goes to another working
directory, `mkdir`, `touch` and `rm` change the tree, `kill` takes a process from the table, and any
other command, known or not, changes nothing. The history takes in every line but a blank one.
-/

namespace PocketShell

open Time (Stamp)
open Command (Invocation)
open Filesystem (Operation)

/-! ## What commands leave of the tree -/

namespace Command.Builtin

variable {name : String} (now : Stamp) (fs : Filesystem) (invocation : Invocation)

theorem root_operations (hname : name ∉ ["mkdir", "touch", "rm"]) :
    (fs.run (operations now fs name invocation)).root = fs.root := by
  unfold operations
  split
  · exact Filesystem.root_after_changeDirectory fs _
  · exact absurd (by decide) hname
  · exact absurd (by decide) hname
  · exact absurd (by decide) hname
  · rfl

theorem working_operations (hname : name ≠ "cd") :
    (fs.run (operations now fs name invocation)).working = fs.working := by
  refine Filesystem.working_run fun operation hmem => ?_
  unfold operations at hmem
  split at hmem
  · exact absurd rfl hname
  · obtain ⟨made, -, rfl⟩ := List.mem_map.1 hmem
    rfl
  · obtain ⟨touched, -, rfl⟩ := List.mem_map.1 hmem
    rfl
  · obtain ⟨removed, -, rfl⟩ := List.mem_map.1 hmem
    rfl
  · exact absurd hmem List.not_mem_nil

end Command.Builtin

namespace Shell

/-- What a line does to the tree it does by the operations of the command that it names, or it does
nothing. -/
theorem operationsOf_cases (now : Stamp) (fs : Filesystem) (line : CommandLine) :
    operationsOf now fs line = [] ∨ ∃ invocation,
      operationsOf now fs line = Command.Builtin.operations now fs line.command invocation := by
  rw [operationsOf]
  cases hfind : Command.Builtin.registry.find? line.command with
  | none => exact .inl rfl
  | some command =>
    dsimp only
    rw [(Command.Builtin.of_find? hfind).2]
    cases Invocation.ofLine line command.policy with
    | error fault => exact .inl rfl
    | ok invocation => exact .inr ⟨invocation, rfl⟩

/-! ## What lines leave of a shell -/

/-- Only what belongs to the command has been changed. -/
structure Framed (command : String) (shell changed : Shell) : Prop where
  root : command ∉ ["mkdir", "touch", "rm"] → changed.filesystem.root = shell.filesystem.root
  working : command ≠ "cd" → changed.filesystem.working = shell.filesystem.working
  processes : command ≠ "kill" → changed.processes.processes = shell.processes.processes
  user : changed.filesystem.user = shell.filesystem.user
  nextPid : changed.processes.nextPid = shell.processes.nextPid
  registry : changed.registry = shell.registry

variable {shell : Shell}

theorem Standard.framed_tree (h : shell.Standard) (now : Stamp) (text : String) :
    ((lineOf text).command ∉ ["mkdir", "touch", "rm"] →
      (shell.execute now text).1.filesystem.root = shell.filesystem.root) ∧
    ((lineOf text).command ≠ "cd" →
      (shell.execute now text).1.filesystem.working = shell.filesystem.working) := by
  rw [filesystem_execute h, operations]
  rcases operationsOf_cases now shell.filesystem (.parse (Text.trim text)) with
    hnone | ⟨invocation, hsome⟩
  · rw [hnone]
    exact ⟨fun _ => rfl, fun _ => rfl⟩
  · rw [hsome]
    exact ⟨Command.Builtin.root_operations now shell.filesystem invocation,
      Command.Builtin.working_operations now shell.filesystem invocation⟩

theorem Standard.framed (h : shell.Standard) (now : Stamp) (text : String) :
    Framed (lineOf text).command shell (shell.execute now text).1 := by
  obtain ⟨hroot, hworking⟩ := h.framed_tree now text
  refine ⟨hroot, hworking, fun hcommand => ?_, ?_, ?_, (h.execute now text).trans h.symm⟩
  · rcases h.processes_execute now text with hsame | ⟨hkill, -⟩
    · rw [hsame]
    · exact absurd hkill hcommand
  · rw [filesystem_execute h, Filesystem.user_run]
  · rcases h.processes_execute now text with hsame | ⟨-, id, hkilled⟩
    · rw [hsame]
    · rw [hkilled, ProcessTable.nextPid_after rfl]

/-- What the history is after a line: as it was after a blank line, and else with the line, without
the blanks around it, as its most recent and the cursor below it. -/
structure Remembered (text : String) (history after : History) : Prop where
  blank : (Text.trim text).isEmpty → after = history
  entered : ¬(Text.trim text).isEmpty →
    after = history.record (Text.trim text) ∧ after.cursor = none

theorem remembered (shell : Shell) (now : Stamp) (text : String) :
    Remembered text shell.history (shell.execute now text).1.history := by
  refine ⟨fun hblank => ?_, fun hentered => ?_⟩
  · rw [execute_of_blank hblank]
  · rw [execute_of_not_blank hentered]
    exact ⟨rfl, rfl⟩

/-- Every line of every shell changes only what belongs to the command that it names, and the
history. -/
theorem framed_execute (clock : Nat → Stamp) (id user : String) (events : List Event)
    (now : Stamp) (text : String) :
    Framed (lineOf text).command ((startAt clock id user).run events)
        (((startAt clock id user).run events).execute now text).1 ∧
      Remembered text ((startAt clock id user).run events).history
        (((startAt clock id user).run events).execute now text).1.history :=
  ⟨(standard_run_startAt clock id user events).framed now text, remembered _ now text⟩

end Shell

end PocketShell
