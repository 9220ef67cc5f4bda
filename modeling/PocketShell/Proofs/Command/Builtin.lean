import PocketShell.Command.Builtin
import PocketShell.Proofs.Filesystem.Atomic
import PocketShell.Proofs.ProcessTable.Operation

/-!
# What commands leave behind

Nine of the commands only look at the machine. The other five change one part of it, by one
operation at their very end. So each of them leaves the machine as it was when it fails, and so does
every line that a registry of them is given.
-/

namespace PocketShell

open Command (Action Invocation)
open PocketShell.Change (Atomic Keeps Steady steady_get steady_pure steady_reading steady_throw)

namespace Command.Builtin

/-! ## The parts of commands -/

theorem steady_operand (invocation : Invocation) (description : String) :
    Steady (operand invocation description) := by
  unfold operand
  split
  · exact steady_pure _
  · exact steady_throw _

/-- A change of the tree changes the tree alone. -/
@[simp] theorem after_onTree (change : Filesystem.Change) (blame : Filesystem.Fault → Fault)
    (machine : Machine) :
    (onTree change blame).after machine =
      { machine with filesystem := change.after machine.filesystem } := by
  rw [onTree, Change.after_bind_steady fun _ => steady_pure _, Change.after_adaptExcept,
    Change.after_within]

/-- A change of the tree that succeeds shows nothing. -/
theorem run_onTree {change : Filesystem.Change} {machine : Machine} {changed : Filesystem}
    (h : change.result machine.filesystem = .ok changed) (blame : Filesystem.Fault → Fault) :
    (onTree change blame).run machine =
      .ok (.text "") { machine with filesystem := changed } := by
  obtain ⟨value, hrun⟩ := Change.result_eq_ok.1 h
  rw [onTree, EStateM.run_bind, EStateM.run_adaptExcept, Change.run_within, hrun]
  rfl

/-- One that fails without a trace is reported. -/
theorem run_onTree_of_error {change : Filesystem.Change} {machine : Machine}
    {fault : Filesystem.Fault} (hatomic : Atomic change)
    (h : change.result machine.filesystem = .error fault) (blame : Filesystem.Fault → Fault) :
    (onTree change blame).run machine = .error (blame fault) machine := by
  rw [onTree, EStateM.run_bind, EStateM.run_adaptExcept, Change.run_within]
  rw [Change.result] at h
  cases hrun : change.run machine.filesystem with
  | ok value changed => simp [hrun] at h
  | error reason left =>
    obtain rfl : reason = fault := by simpa [hrun] using h
    obtain rfl : left = machine.filesystem := hatomic _ _ _ hrun
    rfl

/-- A change of the processes changes the processes alone. -/
@[simp] theorem after_onProcesses (change : ProcessTable.Change)
    (blame : ProcessTable.Fault → Fault) (machine : Machine) :
    (onProcesses change blame).after machine =
      { machine with processes := change.after machine.processes } := by
  rw [onProcesses, Change.after_bind_steady fun _ => steady_pure _, Change.after_adaptExcept,
    Change.after_within]

theorem keeps_onTree (change : Filesystem.Change) (blame : Filesystem.Fault → Fault) :
    Keeps Machine.processes (onTree change blame) := by
  intro machine
  rw [after_onTree]

theorem keeps_onProcesses (change : ProcessTable.Change) (blame : ProcessTable.Fault → Fault) :
    Keeps Machine.filesystem (onProcesses change blame) := by
  intro machine
  rw [after_onProcesses]

theorem atomic_onTree {change : Filesystem.Change} (h : Atomic change)
    (blame : Filesystem.Fault → Fault) : Atomic (onTree change blame) :=
  ((h.within fun _ => rfl).adaptExcept blame).bind_sure fun _ => Change.sure_pure _

theorem atomic_onProcesses {change : ProcessTable.Change} (h : Atomic change)
    (blame : ProcessTable.Fault → Fault) : Atomic (onProcesses change blame) :=
  ((h.within fun _ => rfl).adaptExcept blame).bind_sure fun _ => Change.sure_pure _

/-! ## Commands that only look -/

variable (around : Surroundings) (invocation : Invocation)

theorem steady_ls : Steady (ls.run around invocation) := by
  refine steady_get.bind fun machine => ?_
  split
  · exact steady_throw _
  · exact steady_pure _
  · exact steady_pure _

theorem steady_cat : Steady (cat.run around invocation) := by
  refine (steady_operand invocation _).bind fun path => steady_get.bind fun machine => ?_
  split
  · exact steady_pure _
  · exact steady_throw _

theorem steady_help : Steady (help.run around invocation) := by
  simp only [help]
  split
  · exact steady_pure _
  · split
    · exact steady_pure _
    · exact steady_throw _

/-- The commands that only look at the machine. -/
def looking : List Command :=
  [ls, pwd, cat, echo, ps, clear, help, history, exit]

theorem steady_run {command : Command} (hcommand : command ∈ looking) :
    Steady (command.run around invocation) := by
  simp only [looking, List.mem_cons, List.not_mem_nil, or_false] at hcommand
  rcases hcommand with rfl | rfl | rfl | rfl | rfl | rfl | rfl | rfl | rfl
  · exact steady_ls around invocation
  · exact steady_get.bind fun _ => steady_pure _
  · exact steady_cat around invocation
  · exact steady_pure _
  · exact steady_get.bind fun _ => steady_pure _
  · exact steady_pure _
  · exact steady_help around invocation
  · exact steady_pure _
  · exact steady_pure _

/-! ## All commands -/

/-- Case analysis on a command of every shell. -/
@[elab_as_elim]
theorem all_cases {motive : (command : Command) → command ∈ all → Prop}
    (ls : ∀ h, motive Builtin.ls h) (cd : ∀ h, motive Builtin.cd h)
    (pwd : ∀ h, motive Builtin.pwd h) (mkdir : ∀ h, motive Builtin.mkdir h)
    (touch : ∀ h, motive Builtin.touch h) (cat : ∀ h, motive Builtin.cat h)
    (rm : ∀ h, motive Builtin.rm h) (echo : ∀ h, motive Builtin.echo h)
    (ps : ∀ h, motive Builtin.ps h) (kill : ∀ h, motive Builtin.kill h)
    (clear : ∀ h, motive Builtin.clear h) (help : ∀ h, motive Builtin.help h)
    (history : ∀ h, motive Builtin.history h) (exit : ∀ h, motive Builtin.exit h)
    {command : Command} (hcommand : command ∈ all) : motive command hcommand := by
  have hcases := hcommand
  simp only [all, List.mem_cons, List.not_mem_nil, or_false] at hcases
  rcases hcases with rfl | rfl | rfl | rfl | rfl | rfl | rfl | rfl | rfl | rfl | rfl | rfl | rfl |
    rfl
  · exact ls _
  · exact cd _
  · exact pwd _
  · exact mkdir _
  · exact touch _
  · exact cat _
  · exact rm _
  · exact echo _
  · exact ps _
  · exact kill _
  · exact clear _
  · exact help _
  · exact history _
  · exact exit _

/-- To kill a process changes no tree. -/
theorem keeps_kill : Keeps Machine.filesystem (kill.run around invocation) := by
  refine ((steady_operand invocation _).keeps _).bind fun word => ?_
  split
  · refine (steady_get.keeps _).bind fun machine => ?_
    split
    · split
      · exact (steady_throw _).keeps _
      · exact keeps_onProcesses _ _
    · exact (steady_throw _).keeps _
  · exact (steady_throw _).keeps _

/-- A process is only killed after everything that can be wrong with the operand was looked at. -/
theorem atomic_kill : Atomic (kill.run around invocation) := by
  refine (steady_operand invocation _).bind_atomic fun word => ?_
  split
  · refine steady_get.bind_atomic fun machine => ?_
    split
    · split
      · exact (steady_throw _).atomic
      · exact atomic_onProcesses (ProcessTable.Operation.kill _ _).atomic _
    · exact (steady_throw _).atomic
  · exact (steady_throw _).atomic

/-- The commands that change the machine. -/
def changing : List Command :=
  [cd, mkdir, touch, rm, kill]

theorem looking_or_changing {command : Command} (h : command ∈ all) :
    command ∈ looking ∨ command ∈ changing := by
  simp only [all, looking, changing, List.mem_cons, List.not_mem_nil, or_false] at h ⊢
  grind

/-- Only killing changes processes. -/
theorem keeps_processes {command : Command} (hcommand : command ∈ all)
    (hname : command.name ≠ "kill") : Keeps Machine.processes (command.run around invocation) := by
  rcases looking_or_changing hcommand with hlooking | hchanging
  · exact (steady_run around invocation hlooking).keeps _
  simp only [changing, List.mem_cons, List.not_mem_nil, or_false] at hchanging
  rcases hchanging with rfl | rfl | rfl | rfl | rfl
  · exact (steady_get.keeps _).bind fun _ => keeps_onTree _ _
  · exact ((steady_operand invocation _).keeps _).bind fun _ => keeps_onTree _ _
  · exact ((steady_operand invocation _).keeps _).bind fun _ => keeps_onTree _ _
  · exact ((steady_operand invocation _).keeps _).bind fun _ => keeps_onTree _ _
  · exact absurd rfl hname

/-- A command that fails leaves the machine as it was. -/
theorem atomic_run {command : Command} (hcommand : command ∈ all) :
    Atomic (command.run around invocation) := by
  rcases looking_or_changing hcommand with hlooking | hchanging
  · exact (steady_run around invocation hlooking).atomic
  simp only [changing, List.mem_cons, List.not_mem_nil, or_false] at hchanging
  rcases hchanging with rfl | rfl | rfl | rfl | rfl
  · exact steady_get.bind_atomic fun machine =>
      atomic_onTree (Filesystem.Operation.changeDirectory _).atomic _
  · exact (steady_operand invocation _).bind_atomic fun name =>
      atomic_onTree (Filesystem.Change.atomic_createDirectory _ name) _
  · exact (steady_operand invocation _).bind_atomic fun name =>
      atomic_onTree (Filesystem.Change.atomic_touch _ name) _
  · exact (steady_operand invocation _).bind_atomic fun name =>
      atomic_onTree (Filesystem.Change.atomic_remove name _) _
  · exact atomic_kill around invocation

end Command.Builtin

/-! ## The registry -/

namespace Registry

variable {command other : Command} {commands : List Command} {registry : Registry}

theorem mem_put (h : other ∈ put command commands) : other = command ∨ other ∈ commands := by
  induction commands with
  | nil => exact .inl (List.mem_singleton.1 h)
  | cons first rest ih =>
    rw [put] at h
    split at h
    · rcases List.mem_cons.1 h with rfl | hrest
      · exact .inl rfl
      · exact .inr (List.mem_cons_of_mem _ hrest)
    · rcases List.mem_cons.1 h with rfl | hrest
      · exact .inr List.mem_cons_self
      · exact (ih hrest).imp_right (List.mem_cons_of_mem _)

/-- Only commands that were registered are in a registry. -/
theorem mem_foldl_register (h : other ∈ (commands.foldl register registry).commands) :
    other ∈ registry.commands ∨ other ∈ commands := by
  induction commands generalizing registry with
  | nil => exact .inl h
  | cons first rest ih =>
    rcases ih h with hearlier | hrest
    · rcases mem_put hearlier with rfl | hbefore
      · exact .inr List.mem_cons_self
      · exact .inl hbefore
    · exact .inr (List.mem_cons_of_mem _ hrest)

/-- A line leaves the machine as it was if it fails, as long as every command does. -/
theorem atomic_dispatch (h : ∀ command ∈ registry.commands, ∀ around invocation,
      Atomic (command.run around invocation))
    (now : Time.Stamp) (history : History) (line : CommandLine) :
    Atomic (registry.dispatch now history line) := by
  unfold dispatch
  split
  · exact (steady_throw _).atomic
  · rename_i command hcommand
    have hmem := List.mem_of_find?_eq_some hcommand
    exact ((steady_reading _).bind_atomic fun invocation => h command hmem _ invocation).adaptExcept
      _

/-! ### What lines come to -/

variable {line : CommandLine}

theorem run_dispatch_none (hfind : registry.find? line.command = none) (now : Time.Stamp)
    (history : History) (machine : Machine) :
    (registry.dispatch now history line).run machine =
      .error (.commandNotFound line.command) machine := by
  rw [dispatch, hfind]
  rfl

theorem run_dispatch_some {command : Command} (hfind : registry.find? line.command = some command)
    (now : Time.Stamp) (history : History) (machine : Machine) :
    (registry.dispatch now history line).run machine =
      match Invocation.ofLine line command.policy with
      | .error reason => .error (.commandFailed line.command reason) machine
      | .ok invocation =>
        match (command.run ⟨now, history, registry.manual⟩ invocation).run machine with
        | .error reason left => .error (.commandFailed line.command reason) left
        | .ok output changed => .ok output changed := by
  rw [dispatch, hfind]
  dsimp only
  rw [EStateM.run_adaptExcept, runCommand, EStateM.run_bind, Change.run_reading]
  cases Invocation.ofLine line command.policy with
  | error reason => rfl
  | ok invocation =>
    dsimp only
    cases (command.run ⟨now, history, registry.manual⟩ invocation).run machine <;> rfl

end Registry

/-- A line with a command that only looks changes nothing. -/
theorem Registry.steady_dispatch {registry : Registry} {line : CommandLine} {command : Command}
    (hfind : registry.find? line.command = some command)
    (hlooking : command ∈ Command.Builtin.looking) (now : Time.Stamp) (history : History) :
    Steady (registry.dispatch now history line) := by
  intro machine
  rw [dispatch, hfind, Change.after_adaptExcept]
  exact (steady_reading _).bind (fun invocation =>
    Command.Builtin.steady_run _ invocation hlooking) machine

/-- A command that is found by a name is one of those of every shell, and bears the name. -/
theorem Command.Builtin.of_find? {command : Command} {name : String}
    (h : registry.find? name = some command) : command ∈ all ∧ command.name = name := by
  refine ⟨?_, by simpa using List.find?_some h⟩
  rcases Registry.mem_foldl_register (List.mem_of_find?_eq_some h) with hnone | hmem
  · cases hnone
  · exact hmem

end PocketShell
