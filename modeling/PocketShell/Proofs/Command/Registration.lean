import Mathlib.Data.List.Basic
import Mathlib.Data.List.Induction
import PocketShell.Proofs.Command.Builtin
import PocketShell.Proofs.Command.Invocation

/-!
# Registered commands

Commands are registered one after another, and a name may come again. The first registration of a
name gives it its place among the others, the last one gives it its command: what the command does,
how it wants its options and what the manual says of it change together (`registered_registerAll`).
-/

namespace PocketShell

open Time (Stamp)
open Command (Invocation)

/-! ## The last command of a name -/

namespace Command

variable {commands : List Command} {command other : Command} {name : String}

/-- Of the given commands that bear the name, this one comes last. -/
def LastNamed (commands : List Command) (name : String) (command : Command) : Prop :=
  command.name = name ∧ ∃ earlier later, commands = earlier ++ command :: later ∧
    ∀ other ∈ later, other.name ≠ name

theorem lastNamed_iff :
    LastNamed commands name command ↔ commands.reverse.find? (·.name == name) = some command := by
  rw [List.find?_eq_some_iff_append, LastNamed, beq_iff_eq]
  refine and_congr_right fun _ => ⟨?_, ?_⟩
  · rintro ⟨earlier, later, rfl, hlater⟩
    exact ⟨later.reverse, earlier.reverse, by simp, by simpa using hlater⟩
  · rintro ⟨later, earlier, hcommands, hlater⟩
    refine ⟨earlier.reverse, later.reverse, ?_, by simpa using hlater⟩
    rw [← List.reverse_reverse commands, hcommands]
    simp

theorem LastNamed.unique (h : LastNamed commands name command)
    (hother : LastNamed commands name other) : command = other :=
  Option.some.inj ((lastNamed_iff.1 h).symm.trans (lastNamed_iff.1 hother))

theorem lastNamed_append_singleton :
    LastNamed (commands ++ [command]) name other ↔
      if command.name = name then other = command else LastNamed commands name other := by
  rw [lastNamed_iff, lastNamed_iff, List.reverse_append, List.reverse_singleton,
    List.singleton_append]
  split
  · rename_i hname
    rw [List.find?_cons_of_pos (by simpa using hname), Option.some.injEq, eq_comm]
  · rename_i hname
    rw [List.find?_cons_of_neg (by simpa using hname)]

end Command

namespace Registry

open Command (LastNamed lastNamed_append_singleton)

variable {commands listed : List Command} {command other : Command} {name : String}
  {registry : Registry}

/-! ## What is listed -/

/-- The names of some commands. -/
abbrev names (commands : List Command) : List String :=
  commands.map Command.name

/-- The commands that are listed after some were registered. -/
structure Lists (commands listed : List Command) : Prop where
  mem_iff : ∀ name, name ∈ names listed ↔ name ∈ names commands
  /-- Names stand in the order of their first registrations, so none of them stands twice. -/
  ordered : (names listed).Pairwise fun first second =>
    (names commands).idxOf first < (names commands).idxOf second
  last : ∀ command ∈ listed, LastNamed commands command.name command

/-- A command takes the place of the one of its name, or comes last. -/
theorem names_put (command : Command) (listed : List Command) :
    names (put command listed) =
      if command.name ∈ names listed then names listed else names listed ++ [command.name] := by
  induction listed with
  | nil => rfl
  | cons first rest ih =>
    rw [put]
    by_cases hfirst : first.name = command.name
    · simp [hfirst]
    · have hnames :
          names (first :: put command rest) = first.name :: names (put command rest) := rfl
      rw [if_neg hfirst, hnames, ih]
      by_cases hrest : command.name ∈ names rest
      · simp [hrest]
      · simp [hrest, Ne.symm hfirst]

theorem mem_put_of_nodup (hnodup : (names listed).Nodup) (h : other ∈ put command listed) :
    other = command ∨ other ∈ listed ∧ other.name ≠ command.name := by
  induction listed with
  | nil => exact .inl (List.mem_singleton.1 h)
  | cons first rest ih =>
    obtain ⟨hfirst, hrest⟩ := List.nodup_cons.1 hnodup
    rw [put] at h
    split at h
    · rename_i hsame
      rcases List.mem_cons.1 h with rfl | hother
      · exact .inl rfl
      · refine .inr ⟨List.mem_cons_of_mem _ hother, fun hname => hfirst ?_⟩
        rw [hsame, ← hname]
        exact List.mem_map_of_mem hother
    · rename_i hne
      rcases List.mem_cons.1 h with rfl | hother
      · exact .inr ⟨List.mem_cons_self, hne⟩
      · exact (ih hrest hother).imp_right (And.imp_left (List.mem_cons_of_mem _))

theorem Lists.nodup (h : Lists commands listed) : (names listed).Nodup :=
  h.ordered.imp fun hlt heq => by simp [heq] at hlt

theorem Lists.register (h : Lists commands listed) (command : Command) :
    Lists (commands ++ [command]) (put command listed) := by
  have hnames : names (commands ++ [command]) = names commands ++ [command.name] := List.map_append
  -- the names that are listed were registered before, so their places stay
  have hordered : (names listed).Pairwise fun first second =>
      (names commands ++ [command.name]).idxOf first <
        (names commands ++ [command.name]).idxOf second := by
    refine h.ordered.imp_of_mem fun hfirst hsecond hlt => ?_
    rw [List.idxOf_append_of_mem ((h.mem_iff _).1 hfirst),
      List.idxOf_append_of_mem ((h.mem_iff _).1 hsecond)]
    exact hlt
  refine ⟨fun name => ?_, ?_, fun other hother => ?_⟩
  · rw [names_put, hnames, List.mem_append, ← h.mem_iff, List.mem_singleton]
    split
    · rename_i hmem
      exact ⟨.inl, fun hname => hname.elim id fun heq => heq ▸ hmem⟩
    · rw [List.mem_append, List.mem_singleton]
  · rw [names_put, hnames]
    split
    · exact hordered
    · rename_i hnew
      have hnot : command.name ∉ names commands := mt (h.mem_iff _).2 hnew
      refine List.pairwise_append.2 ⟨hordered, List.pairwise_singleton _ _, ?_⟩
      intro name hname last hlast
      obtain rfl := List.mem_singleton.1 hlast
      have hmem := (h.mem_iff _).1 hname
      rw [List.idxOf_append_of_mem hmem, List.idxOf_append_of_notMem hnot]
      exact Nat.lt_add_right _ (List.idxOf_lt_length_of_mem hmem)
  · rw [lastNamed_append_singleton]
    rcases mem_put_of_nodup h.nodup hother with rfl | ⟨hearlier, hne⟩
    · rw [if_pos rfl]
    · rw [if_neg (Ne.symm hne)]
      exact h.last other hearlier

/-- The registry with more commands, registered one after another. -/
def registerAll (registry : Registry) (commands : List Command) : Registry :=
  commands.foldl register registry

theorem lists_registerAll (commands : List Command) :
    Lists commands (empty.registerAll commands).commands := by
  induction commands using List.reverseRecOn with
  | nil => exact ⟨by simp [registerAll, empty], .nil, by simp [registerAll, empty]⟩
  | append_singleton earlier command ih =>
    rw [registerAll, List.foldl_append]
    exact ih.register command

theorem Lists.find?_eq_some_iff (h : Lists commands registry.commands) :
    registry.find? name = some command ↔ LastNamed commands name command := by
  have hfound : ∀ other, registry.find? name = some other → LastNamed commands name other := by
    intro other hother
    obtain rfl : other.name = name := by simpa using List.find?_some hother
    exact h.last other (List.mem_of_find?_eq_some hother)
  refine ⟨hfound command, fun hlast => ?_⟩
  cases hfind : registry.find? name with
  | some other => rw [(hfound other hfind).unique hlast]
  | none =>
    obtain ⟨rfl, earlier, later, rfl, -⟩ := hlast
    have hmem : command.name ∈ names registry.commands := (h.mem_iff _).2 (by simp)
    obtain ⟨listed, hlisted, hname⟩ := List.mem_map.1 hmem
    simpa [hname] using List.find?_eq_none.1 hfind listed hlisted

theorem Lists.find?_eq_none (h : Lists commands registry.commands)
    (hunknown : ∀ command ∈ commands, command.name ≠ name) : registry.find? name = none := by
  cases hfind : registry.find? name with
  | none => rfl
  | some command =>
    obtain ⟨hname, earlier, later, rfl, -⟩ := h.find?_eq_some_iff.1 hfind
    exact absurd hname (hunknown command (by simp))

/-! ## The overview of `help` -/

/-- The row of a command: its name, filled up to ten characters, and its description. -/
def rowOf (command : Command) : String :=
  Text.padRight 10 command.name ++ " - " ++ command.page.description ++ "\n"

/-- An overview of some commands, with a row for each. -/
def overviewOf (commands : List Command) : String :=
  "Available commands:\n\n" ++ Text.join "" (commands.map rowOf) ++
    "\nType \"help [command]\" for more information about a specific command."

theorem overview_manual (registry : Registry) :
    Command.Builtin.overview registry.manual = overviewOf registry.commands := by
  have hrows : registry.manual.map Command.Builtin.helpRow = registry.commands.map rowOf := by
    rw [manual, List.map_map]
    rfl
  unfold Command.Builtin.overview
  rw [hrows]
  rfl

theorem run_help {around : Surroundings} {invocation : Invocation}
    (h : invocation.first? = none) (machine : Machine) :
    (Command.Builtin.help.run around invocation).run machine =
      .ok (.text (Command.Builtin.overview around.manual)) machine := by
  simp only [Command.Builtin.help, h]
  rfl

/-- A line of one word gives the command that it names nothing, however that wants its options. -/
theorem ofLine_of_words {text name : String} (h : Text.words text = [name])
    (policy : Command.OptionPolicy) : Invocation.ofLine (.parse text) policy = .ok ⟨[], []⟩ := by
  rw [Invocation.ofLine_parse h, Invocation.kept_nil]
  rfl

/-! ## Registering -/

/-- What registering some commands one after another comes to. -/
structure Registered (commands : List Command) (registry : Registry) : Prop where
  /-- Each name is listed once, in the order of the first registrations. -/
  lists : Lists commands registry.commands
  find?_iff : ∀ (name : String) (command : Command),
    registry.find? name = some command ↔ LastNamed commands name command
  /-- A line is run by the last command of the name, which receives what its own options make of
  the line. -/
  dispatched : ∀ (now : Stamp) (history : History) (machine : Machine) (line : CommandLine)
    (command : Command), LastNamed commands line.command command →
      (registry.dispatch now history line).run machine =
        match Invocation.ofLine line command.policy with
        | .error reason => .error (.commandFailed line.command reason) machine
        | .ok invocation =>
          match (command.run ⟨now, history, registry.manual⟩ invocation).run machine with
          | .error reason left => .error (.commandFailed line.command reason) left
          | .ok output changed => .ok output changed
  /-- A line with a name that was never registered leaves the machine as it was. -/
  unknown : ∀ (now : Stamp) (history : History) (machine : Machine) (line : CommandLine),
    (∀ command ∈ commands, command.name ≠ line.command) →
      (registry.dispatch now history line).run machine =
        .error (.commandNotFound line.command) machine
  /-- `help` without arguments shows a row for each command that is listed, in the same order. -/
  overview : ∀ (now : Stamp) (history : History) (machine : Machine) (invocation : Invocation),
    invocation.first? = none →
      (Command.Builtin.help.run ⟨now, history, registry.manual⟩ invocation).run machine =
        .ok (.text (overviewOf registry.commands)) machine
  /-- So does the line `help`, unless another command was registered under the name since. -/
  overviewLine : ∀ (now : Stamp) (history : History) (machine : Machine) (text : String),
    LastNamed commands "help" Command.Builtin.help → Text.words text = ["help"] →
      (registry.dispatch now history (.parse text)).run machine =
        .ok (.text (overviewOf registry.commands)) machine

theorem Lists.registered (h : Lists commands registry.commands) : Registered commands registry where
  lists := h
  find?_iff name command := h.find?_eq_some_iff
  dispatched now history machine line command hlast :=
    run_dispatch_some (h.find?_eq_some_iff.2 hlast) now history machine
  unknown now history machine line hunknown :=
    run_dispatch_none (h.find?_eq_none hunknown) now history machine
  overview now history machine invocation hnone := by
    rw [← overview_manual]
    exact run_help hnone machine
  overviewLine now history machine text hhelp hwords := by
    have hcommand : (CommandLine.parse text).command = "help" := by
      rw [CommandLine.parse_eq hwords]
    have hfind : registry.find? (CommandLine.parse text).command = some Command.Builtin.help := by
      rw [hcommand]
      exact h.find?_eq_some_iff.2 hhelp
    have hnone : (Invocation.mk [] []).first? = none := rfl
    rw [run_dispatch_some hfind, ofLine_of_words hwords]
    dsimp only
    rw [run_help hnone, overview_manual]

/-- Whatever is registered, in whatever order and however often, in a new registry or in that of
every shell. -/
theorem registered_registerAll (commands : List Command) :
    Registered commands (empty.registerAll commands) ∧
      Registered (Command.Builtin.all ++ commands)
        (Command.Builtin.registry.registerAll commands) := by
  refine ⟨(lists_registerAll commands).registered, ?_⟩
  have hall : Command.Builtin.registry.registerAll commands =
      empty.registerAll (Command.Builtin.all ++ commands) := by
    rw [registerAll, registerAll, List.foldl_append, Command.Builtin.registry]
  rw [hall]
  exact (lists_registerAll _).registered

/-- A command that takes the place of another is listed where that was. -/
example :
    names (Command.Builtin.registry.registerAll
      [{ Command.Builtin.echo with page := ⟨"cd", "Say where to go", "cd"⟩ }]).commands =
        names Command.Builtin.all := by
  decide

end Registry

end PocketShell
