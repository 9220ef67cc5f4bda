import PocketShell.Proofs.Command.Kill
import PocketShell.Proofs.Command.Output
import PocketShell.Proofs.Shell.Reachable

/-!
# What lines show

Every line that is not blank shows itself, behind the working directory, and at most one line more:
why it failed, without a line break unless the user is named with one, or what its command puts out.
Only a bare `clear` shows nothing, and only a bare `exit` asks for the end of the session. Nothing
can go wrong on the way that is not shown: where the options of a line put words back, there is a
place for them.
-/

namespace PocketShell

open Command (Invocation)
open CommandLine (Bare)
open OptionWord (isOption)
open PocketShell.Change (Ends)
open Text (BreaksAs breaksAs_append breaksAs_ofList)
open Time (Stamp)

/-! ## Dispatching a line -/

namespace Registry

variable {registry : Registry} {now : Stamp} {history : History} {line : CommandLine}
  {machine : Machine} {fault : Fault}

/-- Why a line fails on a machine: no command has its name, or the command refuses its options or
fails. -/
inductive Fails (registry : Registry) (around : Surroundings) (line : CommandLine)
    (machine : Machine) : Fault → Prop
  | unknown (hfind : registry.find? line.command = none) :
    Fails registry around line machine (.commandNotFound line.command)
  | refused {command : Command} {reason : Command.Fault}
    (hfind : registry.find? line.command = some command)
    (hline : Invocation.ofLine line command.policy = .error reason) :
    Fails registry around line machine (.commandFailed line.command reason)
  | failed {command : Command} {invocation : Invocation} {reason : Command.Fault} {left : Machine}
    (hfind : registry.find? line.command = some command)
    (hline : Invocation.ofLine line command.policy = .ok invocation)
    (hrun : (command.run around invocation).run machine = .error reason left) :
    Fails registry around line machine (.commandFailed line.command reason)

theorem fails_iff :
    registry.Fails ⟨now, history, registry.manual⟩ line machine fault ↔
      ∃ left, (registry.dispatch now history line).run machine = .error fault left := by
  constructor
  · rintro (hfind | ⟨hfind, hline⟩ | @⟨command, invocation, reason, left, hfind, hline, hrun⟩)
    · exact ⟨machine, run_dispatch_none hfind now history machine⟩
    · exact ⟨machine, by rw [run_dispatch_some hfind, hline]⟩
    · exact ⟨left, by rw [run_dispatch_some hfind, hline]; simp only [hrun]⟩
  · rintro ⟨left, hleft⟩
    cases hfind : registry.find? line.command with
    | none =>
      rw [run_dispatch_none hfind] at hleft
      cases hleft
      exact .unknown hfind
    | some command =>
      rw [run_dispatch_some hfind] at hleft
      cases hline : Invocation.ofLine line command.policy with
      | error reason =>
        rw [hline] at hleft
        cases hleft
        exact .refused hfind hline
      | ok invocation =>
        rw [hline] at hleft
        dsimp only at hleft
        cases hrun : (command.run ⟨now, history, registry.manual⟩ invocation).run machine with
        | error reason left =>
          rw [hrun] at hleft
          cases hleft
          exact .failed hfind hline hrun
        | ok output changed =>
          rw [hrun] at hleft
          cases hleft

end Registry

/-! ## Lines with the commands of every shell -/

namespace Command.Builtin

/-- The commands that signal take no options. -/
theorem policy_of_signals {command : Command} (hcommand : command ∈ all)
    (hname : command.name = "clear" ∨ command.name = "exit") : command.policy = .flags [] := by
  cases hcommand using all_cases with
  | clear | exit => rfl
  | ls | cd | pwd | mkdir | touch | cat | rm | echo | ps | kill | help | history =>
    exact absurd hname (by decide)

/-- A command that knows no flags takes a line if and only if no word of it is an option. -/
theorem plain_iff {line first : String} {rest : List String}
    (hwords : Text.words line = first :: rest) :
    (∀ word ∈ rest, isOption word = false) ↔
      ∃ invocation, Invocation.ofLine (.parse line) (.flags []) = .ok invocation := by
  rw [ofLine_flags_nil, CommandLine.parse_eq hwords,
    ← (CommandLine.scanned 0 rest).options_eq_nil_iff]
  cases (CommandLine.scan 0 rest).2 <;> simp

/-- What a line of some words may answer with: a signal if and only if it is a bare one. -/
structure SignalsBare (first : String) (rest : List String) (output : Output) : Prop where
  clear : output = .clear ↔ Bare "clear" first rest
  exit : output = .exit ↔ Bare "exit" first rest

/-- Why a line of some words may fail: it is no bare signal, and the wording is headed by its first
word and breaks no line that the name of the user does not. -/
structure RefusesWords (user first : String) (rest : List String) (fault : Registry.Fault) :
    Prop where
  not_clear : ¬Bare "clear" first rest
  not_exit : ¬Bare "exit" first rest
  breaks : BreaksAs user fault.message
  headed : ∃ reason, fault.message = first ++ ": " ++ reason

section
variable {user line first : String} {rest : List String} {name : String}

theorem not_bare_of_unknown (hfind : registry.find? first = none)
    (hname : name = "clear" ∨ name = "exit") : ¬Bare name first rest := by
  rintro ⟨rfl, -⟩
  rcases hname with rfl | rfl
  · cases (show registry.find? "clear" = some clear from rfl).symm.trans hfind
  · cases (show registry.find? "exit" = some exit from rfl).symm.trans hfind

theorem refusesWords_unknown (hwords : Text.words line = first :: rest)
    (hfind : registry.find? first = none) :
    RefusesWords user first rest (.commandNotFound first) where
  not_clear := not_bare_of_unknown hfind (.inl rfl)
  not_exit := not_bare_of_unknown hfind (.inr rfl)
  breaks := by
    refine breaksAs_append.2 ⟨?_, breaksAs_ofList (by decide)⟩
    exact Text.breaksAs_of_mem_words (hwords ▸ List.mem_cons_self)
  headed := ⟨"command not found", by
    rw [String.append_assoc]
    rfl⟩

theorem refusesWords_failed (hwords : Text.words line = first :: rest) {reason : Fault}
    (hclear : ¬Bare "clear" first rest) (hexit : ¬Bare "exit" first rest)
    (hquoted : ∀ text ∈ reason.quoted, BreaksAs user text) :
    RefusesWords user first rest (.commandFailed first reason) where
  not_clear := hclear
  not_exit := hexit
  breaks := by
    refine breaksAs_append.2 ⟨breaksAs_append.2 ⟨?_, breaksAs_ofList (by decide)⟩,
      Fault.breaksAs_message hquoted⟩
    exact Text.breaksAs_of_mem_words (hwords ▸ List.mem_cons_self)
  headed := ⟨reason.message, rfl⟩

/-- A signal is bare if and only if its command takes the line. -/
theorem bare_iff (hwords : Text.words line = first :: rest) {command : Command}
    (hfind : registry.find? first = some command) (hname : name = "clear" ∨ name = "exit") :
    Bare name first rest ↔
      first = name ∧
        ∃ invocation, Invocation.ofLine (.parse line) command.policy = .ok invocation := by
  obtain ⟨hmem, hcommand⟩ := of_find? hfind
  refine ⟨fun ⟨hfirst, hrest⟩ => ⟨hfirst, ?_⟩, fun ⟨hfirst, hline⟩ => ⟨hfirst, ?_⟩⟩
  · rw [policy_of_signals hmem (by rwa [hcommand, hfirst])]
    exact (plain_iff hwords).1 hrest
  · rw [policy_of_signals hmem (by rwa [hcommand, hfirst])] at hline
    exact (plain_iff hwords).2 hline

/-- A line of some words signals, or it fails, only as it may. -/
theorem ends_dispatch (hwords : Text.words line = first :: rest) (machine : Machine) (now : Stamp)
    (history : History) :
    Ends (SignalsBare first rest) (RefusesWords machine.filesystem.user first rest)
      (registry.dispatch now history (.parse line)) machine := by
  have hplain : ∀ word ∈ rest, BreaksAs machine.filesystem.user word :=
    fun word hword => Text.breaksAs_of_mem_words (hwords ▸ List.mem_cons_of_mem first hword)
  have hfirst : (CommandLine.parse line).command = first := by rw [CommandLine.parse_eq hwords]
  cases hfind : registry.find? (CommandLine.parse line).command with
  | none =>
    refine Change.ends_of_error (Registry.run_dispatch_none hfind now history machine) ?_
    rw [hfirst]
    exact refusesWords_unknown hwords (hfirst ▸ hfind)
  | some command =>
    obtain ⟨hmem, hname⟩ := of_find? hfind
    have hdispatch := Registry.run_dispatch_some hfind now history machine
    rw [hfirst] at hdispatch hfind hname
    cases hline : Invocation.ofLine (.parse line) command.policy with
    | error reason =>
      obtain ⟨word, hword, -, hreason⟩ := Invocation.exists_of_ofLine_eq_error hwords hline
      rw [hline] at hdispatch
      refine Change.ends_of_error hdispatch (refusesWords_failed hwords ?_ ?_ ?_)
      · simp [bare_iff hwords hfind, hline]
      · simp [bare_iff hwords hfind, hline]
      · rw [hreason]
        exact List.forall_mem_singleton.2 (hplain word hword)
    | ok invocation =>
      have harguments : ∀ word ∈ invocation.arguments, BreaksAs machine.filesystem.user word :=
        fun word hword => hplain word (Invocation.mem_of_ofLine hwords hline word hword)
      have hends := ends_run ⟨now, history, registry.manual⟩ hmem harguments
        (Text.breaksAs_self machine.filesystem.user)
      rw [hname] at hends
      rw [hline] at hdispatch
      dsimp only at hdispatch
      cases hrun : (command.run ⟨now, history, registry.manual⟩ invocation).run machine with
      | error reason left =>
        have hrefuses := hends.of_error hrun
        rw [hrun] at hdispatch
        exact Change.ends_of_error hdispatch (refusesWords_failed hwords
          (fun hbare => hrefuses.not_clear hbare.named)
          (fun hbare => hrefuses.not_exit hbare.named) hrefuses.quoted)
      | ok output changed =>
        have hsignals := hends.of_ok hrun
        rw [hrun] at hdispatch
        refine Change.ends_of_ok hdispatch ⟨?_, ?_⟩
        · simp [bare_iff hwords hfind, hline, hsignals.clear]
        · simp [bare_iff hwords hfind, hline, hsignals.exit]

end

end Command.Builtin

namespace Shell

/-! ## What a line shows -/

variable {shell : Shell} {now : Stamp} {text first : String} {rest : List String}

/-- Why a line of a shell fails. -/
def Fails (shell : Shell) (now : Stamp) (text : String) (fault : Registry.Fault) : Prop :=
  shell.registry.Fails ⟨now, shell.history.record (Text.trim text), shell.registry.manual⟩
    (lineOf text) shell.machine fault

/-- The line that is shown behind the one that was entered, if there is one: the error with which a
line fails, headed by its first word and without a line break unless the user is named with it, or
some output. -/
inductive Further (shell : Shell) (now : Stamp) (text first : String) : Option TerminalLine → Prop
  | error {fault : Registry.Fault} {reason : String} (hfails : shell.Fails now text fault)
    (hmessage : fault.message = first ++ ": " ++ reason)
    (hbreaks : BreaksAs shell.filesystem.user fault.message) :
    Further shell now text first (some ⟨.error, fault.message⟩)
  | silent (hdone : ∀ fault, ¬shell.Fails now text fault) : Further shell now text first none
  | output {output : String} (hdone : ∀ fault, ¬shell.Fails now text fault)
    (houtput : output ≠ "") :
    Further shell now text first (some ⟨.output, output⟩)

/-- What is shown for a line of some words. -/
structure Shows (shell : Shell) (now : Stamp) (text first : String) (rest : List String)
    (outcome : Outcome) : Prop where
  didClear : outcome.didClear ↔ Bare "clear" first rest
  cleared : outcome.didClear → outcome.lines = []
  shown : ¬outcome.didClear → ∃ further, Further shell now text first further ∧
    outcome.lines =
      ⟨.input, shell.filesystem.currentPath ++ " $ " ++ Text.trim text⟩ :: further.toList
  exitRequested : outcome.exitRequested ↔ Bare "exit" first rest

/-- What a line comes to. -/
structure Answers (shell : Shell) (now : Stamp) (text : String) (result : Shell × Outcome) :
    Prop where
  /-- Every word that an option took is put back at a place that is there. -/
  inRange : ∀ policy, Invocation.InRange policy ⟨(lineOf text).arguments, 0, []⟩
    (lineOf text).options
  /-- A line of blanks only does nothing. -/
  blank : (∀ c ∈ text.toList, Text.isBlank c) → result = (shell, .empty)
  entered : (¬∀ c ∈ text.toList, Text.isBlank c) → ∃ first rest,
    Text.words text = first :: rest ∧ Shows shell now text first rest result.2

theorem further_ofText (first output : String) (hdone : ∀ fault, ¬shell.Fails now text fault) :
    ∃ further, Further shell now text first further ∧
      Outcome.ofText output = further.toList := by
  rw [Outcome.ofText]
  by_cases houtput : output = ""
  · exact ⟨none, .silent hdone, by rw [houtput]; rfl⟩
  · refine ⟨some ⟨.output, output⟩, .output hdone houtput, ?_⟩
    rw [if_neg (by simpa using houtput)]
    rfl

theorem Standard.shows (h : shell.Standard) (hwords : Text.words text = first :: rest)
    (now : Stamp) :
    Shows shell now text first rest (shell.execute now text).2 := by
  have htrim : Text.words (Text.trim text) = first :: rest := by rw [Text.words_trim, hwords]
  have hblank : ¬(Text.trim text).isEmpty := Text.trim_not_isEmpty_of_words hwords
  have hinput : shell.shown text =
      ⟨.input, shell.filesystem.currentPath ++ " $ " ++ Text.trim text⟩ := by
    rw [shown, promptText, @String.append_assoc _ " $" " "]
    rfl
  have hends := Command.Builtin.ends_dispatch htrim shell.machine now
    (shell.history.record (Text.trim text))
  rw [← show shell.registry = Command.Builtin.registry from h] at hends
  rw [execute_eq hblank, hinput]
  cases hrun : (shell.registry.dispatch now (shell.history.record (Text.trim text))
    (lineOf text)).run shell.machine with
  | ok output machine =>
    have hsignals := hends.of_ok hrun
    have hdone : ∀ fault, ¬shell.Fails now text fault := by
      intro fault hfails
      obtain ⟨left, hleft⟩ := Registry.fails_iff.1 hfails
      cases hrun.symm.trans hleft
    cases output with
    | text output =>
      obtain ⟨further, hfurther, hlines⟩ := further_ofText first output hdone
      refine ⟨?_, nofun, fun _ => ⟨further, hfurther, congrArg (List.cons _) hlines⟩, ?_⟩
      · exact iff_of_false Bool.false_ne_true fun hbare => nomatch hsignals.clear.2 hbare
      · exact iff_of_false Bool.false_ne_true fun hbare => nomatch hsignals.exit.2 hbare
    | clear =>
      refine ⟨iff_of_true rfl (hsignals.clear.1 rfl), fun _ => rfl, fun hnot => absurd rfl hnot, ?_⟩
      exact iff_of_false Bool.false_ne_true fun hbare => nomatch hsignals.exit.2 hbare
    | exit =>
      refine ⟨?_, nofun, fun _ => ⟨none, .silent hdone, rfl⟩, iff_of_true rfl (hsignals.exit.1 rfl)⟩
      exact iff_of_false Bool.false_ne_true fun hbare => nomatch hsignals.clear.2 hbare
  | error fault left =>
    have hrefuses := hends.of_error hrun
    obtain ⟨reason, hmessage⟩ := hrefuses.headed
    have hfails : shell.Fails now text fault := Registry.fails_iff.2 ⟨left, hrun⟩
    refine ⟨?_, nofun, fun _ => ⟨_, .error hfails hmessage hrefuses.breaks, rfl⟩, ?_⟩
    · exact iff_of_false Bool.false_ne_true hrefuses.not_clear
    · exact iff_of_false Bool.false_ne_true hrefuses.not_exit

theorem Standard.answers (h : shell.Standard) (now : Stamp) (text : String) :
    Answers shell now text (shell.execute now text) := by
  refine ⟨fun policy => ?_, fun hblank => ?_, fun hentered => ?_⟩
  · rw [lineOf]
    exact Invocation.inRange_parse policy (Text.trim text)
  · exact execute_of_blank (Text.trim_isEmpty_iff.2 hblank) now
  · cases hwords : Text.words text with
    | nil => exact absurd (Text.words_eq_nil_iff.1 hwords) hentered
    | cons first rest => exact ⟨first, rest, rfl, h.shows hwords now⟩

/-- Every line of every shell is answered. -/
theorem answers_execute (clock : Nat → Stamp) (id user : String) (events : List Event)
    (now : Stamp) (text : String) :
    Answers ((startAt clock id user).run events) now text
      (((startAt clock id user).run events).execute now text) :=
  (standard_run_startAt clock id user events).answers now text

end Shell

end PocketShell
