import PocketShell.Proofs.Command.Builtin
import PocketShell.Proofs.Digits
import PocketShell.Proofs.ProcessTable.Invariant
import PocketShell.Proofs.Yields

/-!
# What `kill` asks for

A line with `kill` either names a process that may be killed, by the pid that its first argument
denotes, or it is refused for one of five reasons. Which of these it is depends on the words of the
line and on the table only, and nothing else that the command does can fail.
-/

namespace PocketShell

open Command (Invocation OptionPolicy)
open PocketShell.Change (steady_reading sure_modify sure_pure)
open Time (Stamp)

/-! ## Words that denote pids -/

namespace Command.Builtin

/-- The word is the pid in decimal digits, perhaps with zeros and then a plus sign in front. -/
def Denotes (word : String) (pid : Nat) : Prop :=
  pid < ProcessTable.pidCount ∧ ∃ sign ∈ ["", "+"], ∃ zeros,
    word = sign ++ String.ofList (List.replicate zeros '0') ++ Text.decimal pid

theorem toList_numeral (sign : String) (zeros pid : Nat) :
    (sign ++ String.ofList (List.replicate zeros '0') ++ Text.decimal pid).toList =
      sign.toList ++ (List.replicate zeros '0' ++ Nat.toDigits 10 pid) := by
  rw [String.toList_append, String.toList_append, String.toList_ofList, Text.toList_decimal,
    List.append_assoc]

/-- No digits begin with a plus sign. -/
theorem zeros_toDigits_ne_plus (zeros pid : Nat) (rest : List Char) :
    List.replicate zeros '0' ++ Nat.toDigits 10 pid ≠ '+' :: rest := by
  intro h
  have hplus : '+' ∈ List.replicate zeros '0' ++ Nat.toDigits 10 pid := by
    rw [h]
    exact List.mem_cons_self
  rcases List.mem_append.1 hplus with hmem | hmem
  · exact absurd (List.mem_replicate.1 hmem).2 (by decide)
  · exact absurd (Nat.isDigit_of_mem_toDigits (by decide) (by decide) hmem) (by decide)

theorem pid?_eq_some_iff {word : String} {pid : Nat} : pid? word = some pid ↔ Denotes word pid := by
  rw [Denotes, pid?, Option.filter_eq_some_iff, Text.number?_eq_some_iff, decide_eq_true_eq,
    and_comm]
  refine and_congr_right fun _ => ?_
  constructor
  · rintro ⟨zeros, hdigits⟩
    split at hdigits
    · rename_i rest hword
      refine ⟨"+", by simp, zeros, String.toList_inj.1 ?_⟩
      rw [toList_numeral, hword, hdigits]
      rfl
    · refine ⟨"", by simp, zeros, String.toList_inj.1 ?_⟩
      rw [toList_numeral, hdigits]
      rfl
  · rintro ⟨sign, hsign, zeros, rfl⟩
    refine ⟨zeros, ?_⟩
    rw [toList_numeral]
    rcases List.mem_pair.1 hsign with rfl | rfl
    · split
      · rename_i rest hplus
        exact absurd hplus (zeros_toDigits_ne_plus zeros pid rest)
      · rfl
    · rfl

/-! ## The process that is asked for -/

/-- The process that `kill` is asked to finish, or why it refuses to. -/
def victim (table : ProcessTable) (invocation : Invocation) : Except Fault ProcessEntry :=
  match invocation.first? with
  | none => .error (.missingOperand "pid operand")
  | some word =>
    match pid? word with
    | none => .error (.invalidPid word)
    | some pid =>
      match table.byPid? pid with
      | none => .error (.noSuchProcess pid)
      | some process =>
        if process.isProtected then .error (.protectedProcess pid) else .ok process

/-- Nothing can fail any more once a process is found. -/
theorem run_change_kill {table : ProcessTable} {process : ProcessEntry} {now : Stamp} {id : String}
    (hfound : table.byId? id = some process) :
    (ProcessTable.Change.kill now id).run table = .ok () (table.after (.kill now id)) := by
  have hsure : ∃ value changed,
      (ProcessTable.Change.kill now id).run table = .ok value changed := by
    rw [ProcessTable.Change.kill, EStateM.run_bind, Change.run_reading, ProcessTable.find, hfound]
    refine ((sure_modify (·.alter id (ProcessEntry.finish now))).bind fun _ => ?_) table
    split
    · exact sure_pure _
    · exact sure_modify _
  obtain ⟨value, changed, hrun⟩ := hsure
  rw [hrun, ProcessTable.after, ProcessTable.Operation.change, Change.after, hrun]

theorem run_onProcesses_kill {machine : Machine} {process : ProcessEntry} {now : Stamp}
    {id : String} (hfound : machine.processes.byId? id = some process)
    (blame : ProcessTable.Fault → Fault) :
    (onProcesses (.kill now id) blame).run machine = .ok (.text "")
      { machine with processes := machine.processes.after (.kill now id) } := by
  rw [onProcesses, EStateM.run_bind, EStateM.run_adaptExcept, Change.run_within,
    run_change_kill hfound]
  rfl

/-- What `kill` does: it kills the process that it is asked to, or it refuses. -/
theorem run_kill (around : Surroundings) (invocation : Invocation) (machine : Machine) :
    (kill.run around invocation).run machine = match victim machine.processes invocation with
      | .ok process => .ok (.text "")
        { machine with processes := machine.processes.after (.kill around.now process.id) }
      | .error fault => .error fault machine := by
  simp only [kill, operand, victim]
  cases invocation.first? with
  | none => rfl
  | some word =>
    dsimp only
    rw [pure_bind]
    cases pid? word with
    | none => rfl
    | some pid =>
      dsimp only
      rw [EStateM.run_bind, EStateM.run_get]
      dsimp only
      cases hfound : machine.processes.byPid? pid with
      | none => rfl
      | some process =>
        dsimp only
        by_cases hprotected : process.isProtected
        · rw [if_pos hprotected, if_pos hprotected]
          rfl
        · rw [if_neg hprotected, if_neg hprotected]
          have hlisted := List.mem_of_find?_eq_some hfound
          obtain ⟨found, hbyId⟩ := ProcessTable.exists_byId? hlisted
          exact run_onProcesses_kill hbyId _

/-! ## Lines with `kill` -/

theorem flagsOf?_nil (option : OptionWord) : flagsOf? [] option = none := by
  rw [flagsOf?]
  split
  · rfl
  · split
    · rfl
    · rename_i hname
      cases hchars : option.name.toList with
      | nil => exact absurd (by rw [hchars]; rfl) hname
      | cons c rest => rw [List.mapM_cons]; rfl

/-- A command without flags takes no line with an option. -/
theorem ofLine_flags_nil (line : CommandLine) :
    Invocation.ofLine line (.flags []) = match line.options with
      | [] => .ok ⟨line.arguments, []⟩
      | option :: _ => .error (.unknownOption option.token) := by
  rw [Invocation.ofLine]
  cases line.options with
  | nil => rfl
  | cons option rest =>
    rw [List.foldlM_cons, Invocation.applyOption, Invocation.answer, flagsOf?_nil]
    rfl

/-- The process that a line with `kill` asks to finish, or why it is refused. -/
def victimOf (table : ProcessTable) (line : CommandLine) : Except Fault ProcessEntry :=
  match line.options with
  | [] => victim table ⟨line.arguments, []⟩
  | option :: _ => .error (.unknownOption option.token)

/-- The line asks `kill`, without options, for a process that is listed and not protected: its first
argument denotes the pid of that process. -/
structure Kills (table : ProcessTable) (line : CommandLine) (process : ProcessEntry) : Prop where
  command : line.command = "kill"
  options : line.options = []
  operand : ∃ word, line.arguments.head? = some word ∧ Denotes word process.pid
  listed : process ∈ table.processes
  unprotected : process.isProtected = false

/-- Why a line with `kill` is refused. -/
inductive Refusal (table : ProcessTable) (line : CommandLine) : Fault → Prop
  | unknownOption {option : OptionWord} (hoption : line.options.head? = some option) :
    Refusal table line (.unknownOption option.token)
  | missingOperand (hoptions : line.options = []) (hfirst : line.arguments = []) :
    Refusal table line (.missingOperand "pid operand")
  | invalidPid {word : String} (hoptions : line.options = [])
    (hfirst : line.arguments.head? = some word) (hword : ∀ pid, ¬Denotes word pid) :
    Refusal table line (.invalidPid word)
  | noSuchProcess {word : String} {pid : Nat} (hoptions : line.options = [])
    (hfirst : line.arguments.head? = some word) (hword : Denotes word pid)
    (habsent : ∀ process ∈ table.processes, process.pid ≠ pid) :
    Refusal table line (.noSuchProcess pid)
  | protectedProcess {word : String} {process : ProcessEntry} (hoptions : line.options = [])
    (hfirst : line.arguments.head? = some word) (hword : Denotes word process.pid)
    (hlisted : process ∈ table.processes) (hprotected : process.isProtected) :
    Refusal table line (.protectedProcess process.pid)

variable {table : ProcessTable} {line : CommandLine} {process : ProcessEntry}

theorem Kills.victimOf_eq (h : Kills table line process)
    (hpids : (table.processes.map ProcessEntry.pid).Nodup) :
    victimOf table line = .ok process := by
  obtain ⟨word, hfirst, hword⟩ := h.operand
  have hfound : table.byPid? process.pid = some process :=
    ProcessTable.find?_eq_some_of_nodup_map hpids h.listed
  simp [victimOf, victim, Invocation.first?, h.options, hfirst, pid?_eq_some_iff.2 hword, hfound,
    h.unprotected]

/-- A line with `kill` asks to finish a process, or there is a reason to refuse it. -/
theorem yields_victimOf (table : ProcessTable) (hcommand : line.command = "kill") :
    Yields (Kills table line) (Refusal table line) (victimOf table line) := by
  rw [victimOf]
  cases hoptions : line.options with
  | cons option rest => exact Refusal.unknownOption (by rw [hoptions, List.head?_cons])
  | nil =>
    dsimp only
    rw [victim, Invocation.first?]
    cases hfirst : line.arguments.head? with
    | none => exact Refusal.missingOperand hoptions (List.head?_eq_none_iff.1 hfirst)
    | some word =>
      dsimp only
      cases hpid : pid? word with
      | none =>
        refine Refusal.invalidPid hoptions hfirst fun pid hword => ?_
        rw [pid?_eq_some_iff.2 hword] at hpid
        cases hpid
      | some pid =>
        have hword := pid?_eq_some_iff.1 hpid
        dsimp only
        cases hfound : table.byPid? pid with
        | none =>
          refine Refusal.noSuchProcess hoptions hfirst hword fun process hlisted hsame => ?_
          exact List.find?_eq_none.1 hfound process hlisted (by simpa using hsame)
        | some process =>
          have hlisted := List.mem_of_find?_eq_some hfound
          obtain rfl : process.pid = pid := by simpa using List.find?_some hfound
          dsimp only
          by_cases hprotected : process.isProtected
          · rw [if_pos hprotected]
            exact Refusal.protectedProcess hoptions hfirst hword hlisted hprotected
          · rw [if_neg hprotected]
            exact ⟨hcommand, hoptions, ⟨word, hfirst, hword⟩, hlisted, by simpa using hprotected⟩

theorem kills_of_victimOf (hcommand : line.command = "kill")
    (h : victimOf table line = .ok process) : Kills table line process := by
  have hyields := yields_victimOf table hcommand
  rwa [h] at hyields

theorem refusal_of_victimOf {fault : Fault} (hcommand : line.command = "kill")
    (h : victimOf table line = .error fault) : Refusal table line fault := by
  have hyields := yields_victimOf table hcommand
  rwa [h] at hyields

end Command.Builtin

namespace Registry

open Command.Builtin (victimOf)

/-- What a line with `kill` comes to. -/
theorem dispatch_kill {line : CommandLine} (hcommand : line.command = "kill") (now : Stamp)
    (history : History) (machine : Machine) :
    (Command.Builtin.registry.dispatch now history line).run machine =
      match victimOf machine.processes line with
      | .ok process => .ok (.text "")
        { machine with processes := machine.processes.after (.kill now process.id) }
      | .error fault => .error (.commandFailed "kill" fault) machine := by
  have hfind : Command.Builtin.registry.find? line.command = some Command.Builtin.kill := by
    rw [hcommand]
    rfl
  have hpolicy : Command.Builtin.kill.policy = .flags [] := rfl
  rw [run_dispatch_some hfind, hpolicy, Command.Builtin.ofLine_flags_nil, victimOf, hcommand]
  cases line.options with
  | cons option rest => rfl
  | nil =>
    dsimp only
    rw [Command.Builtin.run_kill]
    cases Command.Builtin.victim machine.processes ⟨line.arguments, []⟩ <;> rfl

/-- Only a line with `kill` changes processes. -/
theorem processes_dispatch {line : CommandLine} (hcommand : line.command ≠ "kill") (now : Stamp)
    (history : History) (machine : Machine) :
    ((Command.Builtin.registry.dispatch now history line).after machine).processes =
      machine.processes := by
  rw [dispatch]
  cases hfind : Command.Builtin.registry.find? line.command with
  | none => rfl
  | some command =>
    obtain ⟨hmem, hname⟩ := Command.Builtin.of_find? hfind
    dsimp only
    rw [Change.after_adaptExcept, runCommand]
    exact ((steady_reading _).keeps _).bind (fun invocation =>
      Command.Builtin.keeps_processes _ invocation hmem (hname ▸ hcommand)) machine

end Registry

end PocketShell
