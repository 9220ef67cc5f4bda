import PocketShell.Proofs.Command.Builtin
import PocketShell.Proofs.Command.Kill
import PocketShell.Proofs.Filesystem.Untimed

/-!
# Commands and the clock

A line with `ps`, or with `ls` and its flag, shows times; no other does. So, but for these and for
lines with `kill`, what a command does to a machine and answers with can be told without the times
in its tree and without the processes; and what `kill` asks for can be told without the times and
the identifiers of the processes.
-/

namespace PocketShell

open Command (Action Invocation)
open PocketShell.Change (Mirrors Steady mirrors_get_bind mirrors_pure mirrors_throw steady_reading)
open Time (Stamp)

/-! ## Views of a machine -/

/-- The process without its times and its identifier. -/
def ProcessEntry.untimed (process : ProcessEntry) : ProcessEntry :=
  { process with id := "", started := .epoch, ended := process.ended.map fun _ => .epoch }

/-- The processes without their times and identifiers. -/
def ProcessTable.untimed (table : ProcessTable) : ProcessTable :=
  { table with processes := table.processes.map ProcessEntry.untimed }

/-- The machine without the times in its tree, and with others in place of its processes. -/
def Machine.untimed (others : ProcessTable → ProcessTable) (machine : Machine) : Machine :=
  ⟨machine.filesystem.untimed, others machine.processes⟩

/-- The surroundings at another time. -/
def Surroundings.at (around : Surroundings) (now : Stamp) : Surroundings :=
  { around with now }

namespace Command.Builtin

/-- The line asks for times: it is one with `ps`, or one with `ls` that sets the flag for long
listings. -/
inductive ShowsTimes (line : CommandLine) : Prop
  | ps (hcommand : line.command = "ps")
  | ls {invocation : Invocation} (hcommand : line.command = "ls")
    (hline : Invocation.ofLine line ls.policy = .ok invocation) (hlong : invocation.flag "long")

/-! ## What commands do -/

section
variable (others : ProcessTable → ProcessTable) (around : Surroundings) (invocation : Invocation)
  {machine : Machine}

/-- The command does to the view of the machine, at the time that stands for every other, what it
does to the machine. -/
abbrev MirrorsRun (command : Command) (machine : Machine) : Prop :=
  Mirrors (Machine.untimed others) id (command.run around invocation)
    (command.run (around.at .epoch) invocation) machine

theorem mirrors_operand (description : String) :
    Mirrors (Machine.untimed others) id (operand invocation description)
      (operand invocation description) machine := by
  rw [operand]
  cases invocation.first? with
  | none => exact mirrors_throw _
  | some word => exact mirrors_pure word

variable {others around invocation}

theorem mirrors_onTree {change image : Filesystem.Change}
    (h : Mirrors Filesystem.untimed id change image machine.filesystem)
    (blame : Filesystem.Fault → Fault) :
    Mirrors (Machine.untimed others) id (onTree change blame) (onTree image blame) machine := by
  have hwithin : Mirrors (Machine.untimed others) id
      (Change.within Machine.filesystem ({ · with filesystem := · }) change)
      (Change.within Machine.filesystem ({ · with filesystem := · }) image) machine :=
    h.within rfl fun _ => rfl
  exact (hwithin.adaptExcept blame).bind fun _ _ => mirrors_pure _

/-- A command that changes the tree by an operation on its first argument. -/
theorem mirrors_onOperand {description : String} {change image : String → Filesystem.Change}
    (h : ∀ word fs, Mirrors Filesystem.untimed id (change word) (image word) fs)
    (blame : String → Filesystem.Fault → Fault) :
    Mirrors (Machine.untimed others) id
      (operand invocation description >>= fun word => onTree (change word) (blame word))
      (operand invocation description >>= fun word => onTree (image word) (blame word)) machine :=
  (mirrors_operand others invocation description).bind fun word _ => mirrors_onTree (h word _) _

theorem shortListing_untimed (entries : List Node) :
    shortListing (entries.map Node.untimed) = shortListing entries := by
  simp [shortListing, List.filter_map, Function.comp_def]

theorem mirrors_ls (hlong : invocation.flag "long" = false) :
    MirrorsRun others around invocation ls machine := by
  refine mirrors_get_bind ?_
  rw [show (machine.untimed others).filesystem = machine.filesystem.untimed from rfl,
    Filesystem.list_untimed]
  cases machine.filesystem.list invocation.first? with
  | error fault => exact mirrors_throw _
  | ok entries =>
    cases entries with
    | nil => exact mirrors_pure _
    | cons first rest =>
      have hsame := shortListing_untimed (first :: rest)
      rw [List.map_cons] at hsame
      simp only [Functor.map, Except.map, List.map_cons, hlong, Bool.false_eq_true, if_false, hsame]
      exact mirrors_pure _

theorem mirrors_cat : MirrorsRun others around invocation cat machine := by
  refine (mirrors_operand others invocation _).bind fun path machine => mirrors_get_bind ?_
  rw [show (machine.untimed others).filesystem = machine.filesystem.untimed from rfl, id,
    Filesystem.file_untimed]
  cases machine.filesystem.file path with
  | error fault => exact mirrors_throw _
  | ok file =>
    simp only [Functor.map, Except.map, Node.content_untimed]
    exact mirrors_pure _

theorem mirrors_help : MirrorsRun others around invocation help machine := by
  simp only [MirrorsRun, help, Surroundings.at]
  cases invocation.first? with
  | none => exact mirrors_pure _
  | some topic =>
    dsimp only
    cases around.manual.find? (·.name == topic) with
    | none => exact mirrors_throw _
    | some page => exact mirrors_pure _

variable (others around machine) in
/-- A command that neither shows times nor has to do with processes. -/
theorem mirrors_run {command : Command} (hcommand : command ∈ all) (hkill : command.name ≠ "kill")
    (hps : command.name ≠ "ps") (hls : command.name = "ls" → invocation.flag "long" = false) :
    MirrorsRun others around invocation command machine := by
  cases hcommand using all_cases with
  | ls => exact mirrors_ls (hls rfl)
  | cd => exact mirrors_get_bind (mirrors_onTree (Filesystem.Change.mirrors_changeDirectory _) _)
  | pwd => exact mirrors_get_bind (mirrors_pure _)
  | mkdir => exact mirrors_onOperand (fun _ _ => Filesystem.Change.mirrors_createDirectory _ _) _
  | touch => exact mirrors_onOperand (fun _ _ => Filesystem.Change.mirrors_touch _ _) _
  | cat => exact mirrors_cat
  | rm => exact mirrors_onOperand (fun _ _ => Filesystem.Change.mirrors_remove _ _) _
  | echo | clear | history | exit => exact mirrors_pure _
  | help => exact mirrors_help
  | ps => exact absurd rfl hps
  | kill => exact absurd rfl hkill

end

/-! ## What `kill` asks for -/

theorem byPid?_untimed (table : ProcessTable) (pid : Nat) :
    table.untimed.byPid? pid = (table.byPid? pid).map ProcessEntry.untimed := by
  rw [ProcessTable.byPid?, ProcessTable.untimed, List.find?_map, ProcessTable.byPid?]
  rfl

theorem victim_untimed (table : ProcessTable) (invocation : Invocation) :
    victim table.untimed invocation = ProcessEntry.untimed <$> victim table invocation := by
  rw [victim, victim]
  cases invocation.first? with
  | none => rfl
  | some word =>
    dsimp only
    cases pid? word with
    | none => rfl
    | some pid =>
      dsimp only
      rw [byPid?_untimed]
      cases table.byPid? pid with
      | none => rfl
      | some process =>
        rw [Option.map_some]
        dsimp only
        rw [show process.untimed.isProtected = process.isProtected from rfl]
        cases process.isProtected <;> rfl

theorem victimOf_untimed (table : ProcessTable) (line : CommandLine) :
    victimOf table.untimed line = ProcessEntry.untimed <$> victimOf table line := by
  rw [victimOf, victimOf]
  cases line.options with
  | nil => exact victim_untimed table _
  | cons option rest => rfl

/-- Nobody who is protected is killed. -/
theorem victimOf_of_protected {table : ProcessTable}
    (hprotected : ∀ process ∈ table.processes, process.isProtected) {line : CommandLine}
    (hkill : line.command = "kill") : ∃ fault, victimOf table line = .error fault := by
  cases hvictim : victimOf table line with
  | error fault => exact ⟨fault, rfl⟩
  | ok process =>
    have hkills := kills_of_victimOf hkill hvictim
    cases hkills.unprotected.symm.trans (hprotected process hkills.listed)

end Command.Builtin

/-! ## What lines do -/

namespace Registry

open Command.Builtin (ShowsTimes victimOf)

variable {line : CommandLine}

/-- A line that neither shows times nor has to do with processes. -/
theorem mirrors_dispatch (hkill : line.command ≠ "kill") (htimes : ¬ShowsTimes line)
    (others : ProcessTable → ProcessTable) (now : Stamp) (history : History) (machine : Machine) :
    Mirrors (Machine.untimed others) id (Command.Builtin.registry.dispatch now history line)
      (Command.Builtin.registry.dispatch .epoch history line) machine := by
  rw [Mirrors]
  cases hfind : Command.Builtin.registry.find? line.command with
  | none =>
    rw [run_dispatch_none hfind, run_dispatch_none hfind]
    rfl
  | some command =>
    obtain ⟨hmem, hname⟩ := Command.Builtin.of_find? hfind
    rw [run_dispatch_some hfind, run_dispatch_some hfind]
    cases hline : Invocation.ofLine line command.policy with
    | error reason => rfl
    | ok invocation =>
      have hlong : command.name = "ls" → invocation.flag "long" = false := by
        intro hls
        rw [← hname, hls] at hfind
        obtain rfl : Command.Builtin.ls = command := Option.some.inj hfind
        exact Bool.eq_false_iff.2 fun hset => htimes (.ls hname.symm hline hset)
      have hrun := Command.Builtin.mirrors_run others
        ⟨now, history, Command.Builtin.registry.manual⟩ machine hmem (hname ▸ hkill)
        (fun hps => htimes (.ps (hname ▸ hps))) hlong
      rw [Command.Builtin.MirrorsRun, Mirrors, Surroundings.at] at hrun
      dsimp only
      rw [hrun]
      cases (command.run ⟨now, history, Command.Builtin.registry.manual⟩ invocation).run machine <;>
        rfl

/-- A line with `kill`, when all processes are protected. -/
theorem mirrors_dispatch_kill (hkill : line.command = "kill") (now : Stamp) (history : History)
    {machine : Machine}
    (hprotected : ∀ process ∈ machine.processes.processes, process.isProtected) :
    Mirrors (Machine.untimed ProcessTable.untimed) id
      (Command.Builtin.registry.dispatch now history line)
      (Command.Builtin.registry.dispatch .epoch history line) machine := by
  obtain ⟨fault, hvictim⟩ := Command.Builtin.victimOf_of_protected hprotected hkill
  rw [Mirrors, dispatch_kill hkill, dispatch_kill hkill,
    show (machine.untimed ProcessTable.untimed).processes = machine.processes.untimed from rfl,
    Command.Builtin.victimOf_untimed, hvictim]
  rfl

end Registry

end PocketShell
