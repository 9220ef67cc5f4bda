import PocketShell.Proofs.Filesystem.Names
import PocketShell.Proofs.Shell.Removal

/-!
# What the shell makes, it can name

Lines give entries no other names than words of theirs that are no options, for no command that
makes entries takes options like any other word (`names_operations`). So where the user's name is
such a word too, every name in the tree can be handed to a command as it stands: `rm -r` removes the
entry that bears it, `cd` enters it and `cat` prints it (`answersToNames_executeAll`).
-/

namespace PocketShell

open Command (Invocation)
open Command.Builtin (cat cd)
open Filesystem (Holds Operation)
open OptionWord (isOption)
open Text (isBlank)
open Time (Stamp)

variable {line word : String}

/-! ## Words that lines hand on -/

theorem IsOperand.of_mem_words (h : word ∈ Text.words line) (hplain : isOption word = false) :
    IsOperand word := by
  obtain ⟨hne, hmem⟩ := Text.of_mem_words h
  exact ⟨mt String.toList_eq_nil_iff.2 hne, fun c hc => (hmem c hc).2, hplain⟩

/-- A command that knows flags is given words of the line that are no options. -/
theorem Command.Invocation.isOperand_of_ofLine {specs : List FlagSpec} {invocation : Invocation}
    (h : ofLine (.parse line) (.flags specs) = .ok invocation) :
    ∀ word ∈ invocation.arguments, IsOperand word := by
  rw [ofLine_eq] at h
  cases hspelled : spelled (.flags specs) (Text.words line).tail with
  | error fault => rw [hspelled] at h; cases h
  | ok flags =>
    rw [hspelled] at h
    cases h
    intro word hword
    obtain ⟨hmem, hplain⟩ := List.mem_filter.1 hword
    exact .of_mem_words (List.mem_of_mem_tail hmem) (by simpa using hplain)

/-! ## Names that lines give -/

namespace Command.Builtin

/-- A command makes and touches entries under the words that it is given. -/
theorem names_operations {command : Command} (hcommand : command ∈ all) {invocation : Invocation}
    (hline : Invocation.ofLine (.parse line) command.policy = .ok invocation) (now : Stamp)
    (fs : Filesystem) :
    ∀ operation ∈ operations now fs command.name invocation, operation.Names IsOperand := by
  intro operation hoperation
  cases hcommand using all_cases with
  | mkdir | touch =>
    obtain ⟨name, hname, rfl⟩ := List.mem_map.1 hoperation
    have hmem : name ∈ invocation.arguments := List.mem_of_mem_head? (Option.mem_toList.1 hname)
    exact Invocation.isOperand_of_ofLine hline name hmem
  | cd => rw [List.mem_singleton.1 hoperation]; trivial
  | rm =>
    obtain ⟨name, -, rfl⟩ := List.mem_map.1 hoperation
    trivial
  | ls | pwd | cat | echo | ps | kill | clear | help | history | exit => cases hoperation

end Command.Builtin

/-- A line gives entries no other names than words that it could hand to any command. -/
theorem Shell.names_operations (now : Stamp) (fs : Filesystem) (text : String) :
    ∀ operation ∈ operations now fs text, operation.Names IsOperand := by
  rw [operations, operationsOf]
  cases hfind : Command.Builtin.registry.find? (CommandLine.parse (Text.trim text)).command with
  | none => simp
  | some command =>
    obtain ⟨hmem, -⟩ := Command.Builtin.of_find? hfind
    dsimp only
    cases hline : Invocation.ofLine (.parse (Text.trim text)) command.policy with
    | error fault => simp
    | ok invocation => exact Command.Builtin.names_operations hmem hline now fs

namespace Filesystem

variable {fs : Filesystem}

/-- Where all names of a tree can be handed on, they can after any lines. -/
theorem named_executeAll (hsound : fs.Sound fun _ => True) (h : fs.root.Named IsOperand)
    (lines : List (Stamp × String)) : (fs.executeAll lines).root.Named IsOperand := by
  induction lines generalizing fs with
  | nil => exact h
  | cons line rest ih =>
    rw [executeAll_cons]
    exact ih (hsound.run_untimed _) (hsound.named_run h (Shell.names_operations line.1 fs line.2))

theorem named_isOperand_startAt {user : String} (huser : IsOperand user) (clock : Nat → Stamp) :
    (startAt clock user).root.Named IsOperand :=
  named_startAt (by decide) (by decide) (by decide) huser clock

end Filesystem

/-! ## Lines with a command and a name -/

namespace Shell

variable {shell : Shell} {children : List Node} {node : Node}

/-- A command that puts out a text on a word, whatever else it is told, shows it for the line of its
name and the word. -/
theorem Standard.execute_operand (h : shell.Standard) {name output : String} {command : Command}
    {machine : Machine} (hname : IsOperand name)
    (hfind : Command.Builtin.registry.find? name = some command) (hword : IsOperand word)
    (hrun : ∀ around,
      (command.run around ⟨[word], []⟩).run shell.machine = .ok (.text output) machine)
    (now : Stamp) :
    shell.execute now (name ++ " " ++ word) =
      ({ shell with machine, history := shell.history.record (Text.trim (name ++ " " ++ word)) },
        ⟨false, false, shell.shown (name ++ " " ++ word) :: Outcome.ofText output⟩) := by
  have hwords : Text.words (name ++ " " ++ word) = [name, word] := by
    rw [Text.words_append_space, hname.words_eq, hword.words_eq]
    rfl
  have hflags : Invocation.spelled command.policy [word] = .ok [] :=
    Invocation.spelled_argument hword.plain []
  have hkept : Invocation.kept command.policy [word] = [word] := by
    rw [Invocation.kept_argument hword.plain, Invocation.kept_nil]
  rw [h.execute_of_words hwords hfind hflags now, hkept, hrun]
  rfl

/-- What the name of an entry of the working directory does as the one word behind a command. -/
structure AnswersToName (shell : Shell) (now : Stamp) (children : List Node) (node : Node) :
    Prop where
  /-- The entry goes, with all below it, and nothing else does. -/
  removed : ∃ before after, children = before ++ node :: after ∧
    shell.execute now ("rm -r " ++ node.name) =
      ({ shell.withFilesystem (shell.filesystem.withChildren (before ++ after)) with
          history := shell.history.record (Text.trim ("rm -r " ++ node.name)) },
        ⟨false, false, [shell.shown ("rm -r " ++ node.name)]⟩) ∧
    (shell.filesystem.withChildren (before ++ after)).list none = .ok (before ++ after)
  /-- The working directory is the entry then, if that is a directory. -/
  entered : node.isDirectory →
    shell.execute now ("cd " ++ node.name) =
      ({ shell.withFilesystem { shell.filesystem with
            working := shell.filesystem.working ++ [node.name] } with
          history := shell.history.record (Text.trim ("cd " ++ node.name)) },
        ⟨false, false, [shell.shown ("cd " ++ node.name)]⟩) ∧
    shell.filesystem.root.directoryAt? (shell.filesystem.working ++ [node.name]) = some node
  /-- What is in a file is shown, if there is anything, and only the history changes. -/
  printed : ¬node.isDirectory → shell.execute now ("cat " ++ node.name) =
    ({ shell with history := shell.history.record (Text.trim ("cat " ++ node.name)) },
      ⟨false, false, shell.shown ("cat " ++ node.name) ::
        if node.content = "" then [] else [⟨.output, node.content⟩]⟩)

section
variable (h : shell.Standard) (hholds : Holds shell.filesystem children) (hnode : node ∈ children)
  (hname : IsOperand node.name) (now : Stamp)
include h hholds hnode hname

theorem Standard.execute_cd (hdir : node.isDirectory) :
    shell.execute now ("cd " ++ node.name) =
      ({ shell.withFilesystem { shell.filesystem with
            working := shell.filesystem.working ++ [node.name] } with
          history := shell.history.record (Text.trim ("cd " ++ node.name)) },
        ⟨false, false, [shell.shown ("cd " ++ node.name)]⟩) := by
  have hentry := hholds.named node hnode
  have hresolved := hholds.resolve?_of_segments hnode (Path.segments_of_isName hentry)
    (Path.not_isAbsolute_of_isName hentry) hdir
  have hchanged := Filesystem.changeDirectory_eq_ok.2 ⟨_, hresolved, rfl⟩
  have hfind : Command.Builtin.registry.find? "cd" = some cd := rfl
  have hline : "cd " ++ node.name = "cd" ++ " " ++ node.name := rfl
  rw [hline, h.execute_operand (by decide) hfind hname (fun _ => Filesystem.run_cd rfl hchanged)]
  rfl

theorem Standard.execute_cat (hfile : ¬node.isDirectory) :
    shell.execute now ("cat " ++ node.name) =
      ({ shell with history := shell.history.record (Text.trim ("cat " ++ node.name)) },
        ⟨false, false, shell.shown ("cat " ++ node.name) :: Outcome.ofText node.content⟩) := by
  have hentry := hholds.named node hnode
  have hfound := hholds.file_of_segments hnode (Path.segments_of_isName hentry)
    (Path.not_isAbsolute_of_isName hentry) hfile
  have hfind : Command.Builtin.registry.find? "cat" = some cat := rfl
  have hline : "cat " ++ node.name = "cat" ++ " " ++ node.name := rfl
  rw [hline, h.execute_operand (by decide) hfind hname (fun _ => Filesystem.run_cat rfl hfound)]

theorem Standard.answersToName : AnswersToName shell now children node where
  removed := h.execute_removal_of_mem hholds hnode hname now
  entered hdir :=
    ⟨h.execute_cd hholds hnode hname now hdir, hholds.directoryAt?_child hnode hdir⟩
  printed hfile := by
    rw [h.execute_cat hholds hnode hname now hfile, Outcome.ofText]
    simp only [String.isEmpty_iff]

end

/-- Whatever lines a new shell has executed, every entry of the working directory answers to its
name, if the user's is a word that is no option. -/
theorem answersToNames_executeAll {user : String} (huser : Path.isName user)
    (hblank : ∀ c ∈ user.toList, isBlank c = false) (hplain : isOption user = false)
    (clock : Nat → Stamp) (id : String) (lines : List (Stamp × String)) (now : Stamp) :
    ∃ children, ((startAt clock id user).executeAll lines).filesystem.list none = .ok children ∧
      ∀ node ∈ children, AnswersToName ((startAt clock id user).executeAll lines) now children
        node := by
  have hoperand : IsOperand user := .of_isName huser hblank hplain
  have hsound := @Filesystem.sound_startAt (fun _ => True) clock user (fun _ => trivial) huser
  obtain ⟨hstandard, htree⟩ :=
    filesystem_executeAll (show (startAt clock id user).Standard from rfl) lines
  obtain ⟨children, hholds⟩ := (hsound.executeAll lines).exists_holds
  have hnamed := hholds.named_children
    (Filesystem.named_executeAll hsound (Filesystem.named_isOperand_startAt hoperand clock) lines)
  have hthere : Holds ((startAt clock id user).executeAll lines).filesystem children := by
    rw [htree]
    exact hholds
  exact ⟨children, hthere.list_eq, fun node hnode =>
    hstandard.answersToName hthere hnode (hnamed node hnode).name now⟩

/-- Lines of a guest who is refused a file that is named like an option, and makes two entries. -/
def guestLines : List (Stamp × String) :=
  [(.ofNanoseconds 10, "touch -x"), (.ofNanoseconds 11, "touch to-do"),
    (.ofNanoseconds 12, "mkdir 'my own'")]

theorem answersToNames_executeAll_guest :
    Path.isName "guest" ∧ (∀ c ∈ "guest".toList, isBlank c = false) ∧ isOption "guest" = false ∧
      (∃ children, ((startAt (fun n => .ofNanoseconds n) "1" "guest").executeAll
          guestLines).filesystem.list none = .ok children ∧
        ∀ node ∈ children, AnswersToName ((startAt (fun n => .ofNanoseconds n) "1"
          "guest").executeAll guestLines) (.ofNanoseconds 20) children node) ∧
      (((startAt (fun n => .ofNanoseconds n) "1" "guest").executeAll
        guestLines).filesystem.list none).toOption.map (·.map Node.name) =
          some ["bin", "etc", "home", "tmp", "usr", "var", "to-do", "'my"] :=
  ⟨by decide, by simp [isBlank], by decide,
    answersToNames_executeAll (by decide) (by simp [isBlank]) (by decide) _ _ _ _,
    by decide +kernel⟩

-- the home of a user who is named like an option is not entered by its name
example : (((startAt (fun n => .ofNanoseconds n) "1" "-me").executeAll
    [(.ofNanoseconds 10, "cd home")]).execute (.ofNanoseconds 20) "cd -me").2.failed := by
  decide +kernel

end Shell

end PocketShell
