import PocketShell.Proofs.Command.Builtin
import PocketShell.Proofs.Command.Invocation
import PocketShell.Proofs.Filesystem.Locality
import PocketShell.Repl

/-!
# What lines do to the tree

Only four commands change the tree, each by one operation, and which one that is depends on the
line, the time and the tree, not on the processes and the history. So the tree that some lines lead
to depends on nothing else either.
-/

namespace PocketShell

open Time (Stamp)
open Command (Invocation)
open Filesystem (Operation)

/-! ## Commands -/

namespace Command.Builtin

/-- The operations by which the command of a name changes the tree. -/
def operations (now : Stamp) (fs : Filesystem) (name : String) (invocation : Invocation) :
    List Operation :=
  match name with
  | "cd" => [.changeDirectory (invocation.first?.getD fs.homePath)]
  | "mkdir" => invocation.first?.toList.map (.createDirectory now)
  | "touch" => invocation.first?.toList.map (.touch now)
  | "rm" => invocation.first?.toList.map fun name => .remove name (invocation.flag "recursive")
  | _ => []

variable (around : Surroundings) (machine : Machine) (invocation : Invocation)

/-- A command that changes the tree by an operation on its first argument. -/
theorem after_operand (description : String) (operation : String → Operation)
    (blame : String → Filesystem.Fault → Fault) :
    (operand invocation description >>= fun name =>
        onTree (operation name).change (blame name)).after machine =
      { machine with filesystem := machine.filesystem.run (invocation.first?.toList.map operation) }
      := by
  rw [operand]
  cases invocation.first? with
  | none => rfl
  | some name => exact after_onTree (operation name).change (blame name) machine

theorem filesystem_cd :
    ((cd.run around invocation).after machine).filesystem =
      machine.filesystem.run [.changeDirectory (invocation.first?.getD machine.filesystem.homePath)]
    := by
  simp only [cd, Change.after_get_bind, after_onTree]
  rfl

/-- What a command does to the tree, it does by its operations. -/
theorem filesystem_run {command : Command} (hcommand : command ∈ all) :
    ((command.run around invocation).after machine).filesystem = machine.filesystem.run
      (operations around.now machine.filesystem command.name invocation) := by
  rcases looking_or_changing hcommand with hlooking | hchanging
  · rw [steady_run around invocation hlooking]
    simp only [looking, List.mem_cons, List.not_mem_nil, or_false] at hlooking
    rcases hlooking with rfl | rfl | rfl | rfl | rfl | rfl | rfl | rfl | rfl <;> rfl
  · simp only [changing, List.mem_cons, List.not_mem_nil, or_false] at hchanging
    rcases hchanging with rfl | rfl | rfl | rfl | rfl
    · exact filesystem_cd around machine invocation
    · exact congrArg Machine.filesystem (after_operand machine invocation "operand"
        (.createDirectory around.now) .cannotCreateDirectory)
    · exact congrArg Machine.filesystem (after_operand machine invocation "file operand"
        (.touch around.now) .cannotTouch)
    · exact congrArg Machine.filesystem (after_operand machine invocation "operand"
        (fun name => .remove name (invocation.flag "recursive")) .cannotRemove)
    · exact keeps_kill around invocation machine

end Command.Builtin

/-! ## Lines -/

namespace Shell

/-- The operations by which a parsed line changes the tree. -/
def operationsOf (now : Stamp) (fs : Filesystem) (line : CommandLine) : List Operation :=
  match Command.Builtin.registry.find? line.command with
  | none => []
  | some command =>
    match Invocation.ofLine line command.policy with
    | .ok invocation => Command.Builtin.operations now fs command.name invocation
    | .error _ => []

/-- The line without the blanks around it, behind the prompt, as it is shown when it is executed. -/
def shown (shell : Shell) (text : String) : TerminalLine :=
  ⟨.input, promptText shell.filesystem.currentPath ++ " " ++ Text.trim text⟩

/-- The words of a line. -/
def lineOf (text : String) : CommandLine :=
  .parse (Text.trim text)

/-- The operations by which a line changes the tree. -/
def operations (now : Stamp) (fs : Filesystem) (text : String) : List Operation :=
  operationsOf now fs (.parse (Text.trim text))

/-- The shell after some lines, each executed at its time. -/
def executeAll (shell : Shell) (lines : List (Stamp × String)) : Shell :=
  lines.foldl (fun shell line => (shell.execute line.1 line.2).1) shell

end Shell

/-- The tree after some lines, each executed at its time. -/
def Filesystem.executeAll (fs : Filesystem) (lines : List (Stamp × String)) : Filesystem :=
  lines.foldl (fun fs line => fs.run (Shell.operations line.1 fs line.2)) fs

theorem Shell.executeAll_cons (shell : Shell) (line : Stamp × String)
    (lines : List (Stamp × String)) :
    shell.executeAll (line :: lines) = (shell.execute line.1 line.2).1.executeAll lines := by
  rw [executeAll, List.foldl_cons, executeAll]

theorem Filesystem.executeAll_cons (fs : Filesystem) (line : Stamp × String)
    (lines : List (Stamp × String)) :
    fs.executeAll (line :: lines) =
      (fs.run (Shell.operations line.1 fs line.2)).executeAll lines := by
  rw [executeAll, List.foldl_cons, executeAll]

theorem Registry.filesystem_dispatch (now : Stamp) (history : History) (machine : Machine)
    (line : CommandLine) :
    ((Command.Builtin.registry.dispatch now history line).after machine).filesystem =
      machine.filesystem.run (Shell.operationsOf now machine.filesystem line) := by
  rw [dispatch, Shell.operationsOf]
  cases hfind : Command.Builtin.registry.find? line.command with
  | none => rfl
  | some command =>
    obtain ⟨hmem, -⟩ := Command.Builtin.of_find? hfind
    rw [Change.after_adaptExcept, runCommand, Change.after_reading_bind]
    dsimp only
    cases Invocation.ofLine line command.policy with
    | error fault => rfl
    | ok invocation => exact Command.Builtin.filesystem_run _ machine invocation hmem

namespace Shell

variable {shell : Shell}

/-- The shell has the commands of every shell. -/
def Standard (shell : Shell) : Prop :=
  shell.registry = Command.Builtin.registry

theorem Standard.execute (h : shell.Standard) (now : Stamp) (text : String) :
    (shell.execute now text).1.Standard := by
  unfold Shell.execute
  dsimp only
  split
  · exact h
  · split <;> exact h

theorem operations_of_blank {text : String} (h : (Text.trim text).isEmpty) (now : Stamp)
    (fs : Filesystem) : operations now fs text = [] := by
  have hfind : Command.Builtin.registry.find? (CommandLine.parse "").command = none := by decide
  rw [operations, String.isEmpty_iff.1 h, operationsOf, hfind]

theorem execute_of_blank {text : String} (h : (Text.trim text).isEmpty) (now : Stamp) :
    shell.execute now text = (shell, .empty) := by
  rw [Shell.execute]
  simp only [h, if_true]

/-- A line that is not blank is recorded, and handed to the command that it names. -/
theorem execute_eq {text : String} (h : ¬(Text.trim text).isEmpty) (now : Stamp) :
    shell.execute now text =
      match (shell.registry.dispatch now (shell.history.record (Text.trim text))
        (lineOf text)).run shell.machine with
      | .ok output machine =>
        ({ shell with machine, history := shell.history.record (Text.trim text) },
          .ofOutput (shell.shown text) output)
      | .error fault machine =>
        ({ shell with machine, history := shell.history.record (Text.trim text) },
          .ofFault (shell.shown text) fault) := by
  rw [Shell.execute]
  simp only [h]
  rfl

theorem execute_of_not_blank {text : String} (h : ¬(Text.trim text).isEmpty) (now : Stamp) :
    (shell.execute now text).1 = { shell with
      machine := (shell.registry.dispatch now (shell.history.record (Text.trim text))
        (lineOf text)).after shell.machine
      history := shell.history.record (Text.trim text) } := by
  rw [execute_eq h, Change.after]
  cases (shell.registry.dispatch now (shell.history.record (Text.trim text)) (lineOf text)).run
    shell.machine <;> rfl

/-- A line that names a command of every shell and spells flags that it knows is executed by the
command, with the words that it keeps. -/
theorem Standard.execute_of_words (h : shell.Standard) {text name : String}
    {words flags : List String} {command : Command} (hwords : Text.words text = name :: words)
    (hfind : Command.Builtin.registry.find? name = some command)
    (hflags : Invocation.spelled command.policy words = .ok flags) (now : Stamp) :
    shell.execute now text =
      match (command.run ⟨now, shell.history.record (Text.trim text), shell.registry.manual⟩
        ⟨Invocation.kept command.policy words, flags⟩).run shell.machine with
      | .ok output machine =>
        ({ shell with machine, history := shell.history.record (Text.trim text) },
          .ofOutput (shell.shown text) output)
      | .error reason machine =>
        ({ shell with machine, history := shell.history.record (Text.trim text) },
          .ofFault (shell.shown text) (.commandFailed name reason)) := by
  have htrim : Text.words (Text.trim text) = name :: words := by rw [Text.words_trim, hwords]
  have hline : (lineOf text).command = name := by rw [lineOf, CommandLine.parse_eq htrim]
  have hcommand : shell.registry.find? (lineOf text).command = some command := by
    rw [h, hline, hfind]
  have hinvocation : Invocation.ofLine (lineOf text) command.policy =
      .ok ⟨Invocation.kept command.policy words, flags⟩ := by
    rw [lineOf, Invocation.ofLine_parse htrim, hflags]
    rfl
  rw [execute_eq (Text.trim_not_isEmpty_of_words hwords), Registry.run_dispatch_some hcommand,
    hinvocation, hline]
  dsimp only
  cases (command.run ⟨now, shell.history.record (Text.trim text), shell.registry.manual⟩
    ⟨Invocation.kept command.policy words, flags⟩).run shell.machine <;> rfl

/-- What a line does to the tree depends on the tree, the line and the time only. -/
theorem filesystem_execute (h : shell.Standard) (now : Stamp) (text : String) :
    (shell.execute now text).1.filesystem =
      shell.filesystem.run (operations now shell.filesystem text) := by
  by_cases hblank : (Text.trim text).isEmpty
  · rw [operations_of_blank hblank, execute_of_blank hblank]
    rfl
  · rw [execute_of_not_blank hblank, h]
    exact Registry.filesystem_dispatch now (shell.history.record (Text.trim text)) shell.machine
      (.parse (Text.trim text))

/-- The tree that lines lead to depends on the tree at their start, the lines and their times
only. -/
theorem filesystem_executeAll (h : shell.Standard) (lines : List (Stamp × String)) :
    (shell.executeAll lines).Standard ∧
      (shell.executeAll lines).filesystem = shell.filesystem.executeAll lines := by
  induction lines generalizing shell with
  | nil => exact ⟨h, rfl⟩
  | cons line rest ih =>
    obtain ⟨hstandard, htree⟩ := ih (h.execute line.1 line.2)
    rw [executeAll_cons, Filesystem.executeAll_cons, ← filesystem_execute h]
    exact ⟨hstandard, htree⟩

end Shell

/-! ## What lines keep of the tree -/

namespace Filesystem

variable {fs : Filesystem}

theorem Sound.executeAll (h : fs.Sound fun _ => True) (lines : List (Stamp × String)) :
    (fs.executeAll lines).Sound fun _ => True := by
  induction lines generalizing fs with
  | nil => exact h
  | cons line rest ih =>
    rw [executeAll_cons]
    exact ih (h.run_untimed _)

theorem user_executeAll (fs : Filesystem) (lines : List (Stamp × String)) :
    (fs.executeAll lines).user = fs.user := by
  induction lines generalizing fs with
  | nil => rfl
  | cons line rest ih =>
    rw [executeAll_cons, ih, user_run]

end Filesystem

/-! ## Executed lines -/

namespace Repl

/-- The lines that are executed, each at its time: all but those that are completed, up to one that
cannot be read or that asks to leave. None is executed after a text that could not be written; a
line whose own reply could not be written has been executed. -/
def executed (output : Output) (shell : Shell) :
    List (Stamp × Option (List UInt8)) → List (Stamp × String)
  | [] => []
  | (now, octets?) :: rest =>
    if !output.takes 0 then []
    else
      match octets?.bind Text.ofUtf8? with
      | none => []
      | some line =>
        match toComplete? line with
        | some _ => if output.takes 1 then executed (output.after 2) shell rest else []
        | none =>
          let (after, outcome) := shell.execute now line
          (now, line) :: if output.takes 1 && !outcome.exitRequested then
            executed (output.after 2) after rest else []

theorem reply_of_completed {terminal : Terminal} {shell : Shell} {now : Stamp} {line input : String}
    (h : toComplete? line = some input) :
    reply terminal shell now line =
      ⟨shell, Terminal.completion (shell.complete input), false⟩ := by
  rw [reply, h]

theorem reply_of_executed {terminal : Terminal} {shell : Shell} {now : Stamp} {line : String}
    (h : toComplete? line = none) :
    reply terminal shell now line = ⟨(shell.execute now line).1,
      terminal.outcome (shell.execute now line).2, (shell.execute now line).2.exitRequested⟩ := by
  rw [reply, h]

/-- Reading lines leaves the shell that the executed ones lead to, whatever can be written. -/
theorem shell_run (terminal : Terminal) (output : Output) (shell : Shell)
    (entered : List (Stamp × Option (List UInt8))) :
    (run terminal output shell entered).shell =
      shell.executeAll (executed output shell entered) := by
  induction entered generalizing output shell with
  | nil =>
    rw [run]
    split <;> rfl
  | cons first rest ih =>
    obtain ⟨now, octets?⟩ := first
    rw [run, executed]
    by_cases hprompt : output.takes 0
    swap
    · simp [hprompt, Shell.executeAll]
    simp only [hprompt, Bool.not_true, Bool.false_eq_true, if_false]
    cases octets?.bind Text.ofUtf8? with
    | none => rfl
    | some line =>
      cases hline : toComplete? line with
      | some input =>
        simp only [reply_of_completed hline, hline, Reply.ending?]
        cases output.takes 1 with
        | false => rfl
        | true => exact ih (output.after 2) shell
      | none =>
        simp only [reply_of_executed hline, hline, Shell.executeAll_cons, Reply.ending?]
        cases output.takes 1 with
        | false => rfl
        | true =>
          cases (shell.execute now line).2.exitRequested with
          | true => rfl
          | false => exact ih (output.after 2) _

end Repl

end PocketShell
