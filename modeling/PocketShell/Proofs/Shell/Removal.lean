import PocketShell.Proofs.Shell.Atomic
import PocketShell.Proofs.Shell.Completion

/-!
# Removing what was completed

A line with `rm -r` and one more word removes the entry of that name, whatever is below it. The name
of a file is what its completion ends with. That of a directory has a slash behind it there, with
which it is a path and no name any more: `rm` refuses it, and takes it without the slash
(`removesCompleted_run`).
-/

namespace PocketShell

open Command (Invocation)
open Command.Builtin (rm)
open Completion (completed starting)
open Filesystem (Holds)
open OptionWord (isOption)
open Text (isBlank)
open Time (Stamp)

/-! ## What `rm` comes to -/

namespace Command.Builtin

variable {fs changed : Filesystem} {given : Invocation} {name : String}

theorem run_rm (hname : given.first? = some name)
    (hchanged : fs.remove name (given.flag "recursive") = .ok changed)
    (around : Surroundings) (processes : ProcessTable) :
    (rm.run around given).run ⟨fs, processes⟩ = .ok (.text "") ⟨changed, processes⟩ := by
  have hresult : (Filesystem.Change.remove name (given.flag "recursive")).result fs = .ok changed :=
    hchanged
  simp only [rm, operand, hname, pure_bind]
  exact run_onTree hresult _

theorem run_rm_of_error (hname : given.first? = some name) {fault : Filesystem.Fault}
    (hfault : fs.remove name (given.flag "recursive") = .error fault)
    (around : Surroundings) (processes : ProcessTable) :
    (rm.run around given).run ⟨fs, processes⟩ =
      .error (.cannotRemove name fault) ⟨fs, processes⟩ := by
  have hresult : (Filesystem.Change.remove name (given.flag "recursive")).result fs =
      .error fault := hfault
  simp only [rm, operand, hname, pure_bind]
  exact run_onTree_of_error (Filesystem.Change.atomic_remove name _) hresult _

end Command.Builtin

theorem message_cannotRemove (word : String) (fault : Filesystem.Fault) :
    (Registry.Fault.commandFailed "rm" (.cannotRemove word fault)).message =
      "rm: cannot remove '" ++ word ++ "': " ++ fault.message := by
  have hmessage : (Registry.Fault.commandFailed "rm" (.cannotRemove word fault)).message =
      "rm" ++ ": " ++ ("cannot remove '" ++ word ++ "': " ++ fault.message) := rfl
  have hhead : "rm: cannot remove '" = "rm" ++ ": " ++ "cannot remove '" := rfl
  rw [hmessage, hhead]
  simp only [String.append_assoc]

/-! ## Lines with one operand -/

/-- A word that a line hands to any command as it stands. -/
structure IsOperand (word : String) : Prop where
  ne_empty : word ≠ ""
  unbroken : ∀ c ∈ word.toList, isBlank c = false
  plain : isOption word = false

theorem isOperand_iff {word : String} : IsOperand word ↔
    word ≠ "" ∧ word.toList.all (!isBlank ·) ∧ isOption word = false := by
  rw [List.all_eq_true]
  simp only [Bool.not_eq_true']
  exact ⟨fun h => ⟨h.ne_empty, h.unbroken, h.plain⟩, fun ⟨hne, hblank, hplain⟩ =>
    ⟨hne, hblank, hplain⟩⟩

instance (word : String) : Decidable (IsOperand word) :=
  decidable_of_iff _ isOperand_iff.symm

theorem IsOperand.of_isName {name : String} (h : Path.isName name)
    (hblank : ∀ c ∈ name.toList, isBlank c = false) (hplain : isOption name = false) :
    IsOperand name :=
  ⟨mt String.toList_eq_nil_iff.2 (Path.isName_iff.1 h).1, hblank, hplain⟩

theorem IsOperand.words_eq {word : String} (h : IsOperand word) : Text.words word = [word] :=
  Text.words_of_forall_not h.ne_empty h.unbroken

theorem IsOperand.append {word other : String} (h : IsOperand word)
    (hother : ∀ c ∈ other.toList, isBlank c = false) : IsOperand (word ++ other) where
  ne_empty hempty := by
    have hlist := congrArg String.toList hempty
    rw [String.toList_append, String.toList_empty, List.append_eq_nil_iff] at hlist
    exact h.ne_empty (String.toList_eq_nil_iff.1 hlist.1)
  unbroken c hc := by
    rw [String.toList_append, List.mem_append] at hc
    exact hc.elim (h.unbroken c) (hother c)
  plain := by
    obtain ⟨first, rest, hlist⟩ :=
      List.exists_cons_of_ne_nil (mt String.toList_eq_nil_iff.1 h.ne_empty)
    have hplain := h.plain
    simpa [isOption, Text.beginsWith, hlist] using hplain

namespace Shell

variable {shell : Shell} {word : String}

/-- A line that removes an entry with all below it. -/
def removal (word : String) : String :=
  "rm -r " ++ word

theorem words_removal (h : IsOperand word) : Text.words (removal word) = ["rm", "-r", word] := by
  have hsplit : removal word = "rm -r" ++ " " ++ word := rfl
  have hcommand : Text.words "rm -r" = ["rm", "-r"] := by decide
  rw [hsplit, Text.words_append_space, hcommand, h.words_eq]
  rfl

/-- The line removes the entry of the name that the word is, or shows why it cannot. -/
theorem Standard.execute_removal (h : shell.Standard) (hword : IsOperand word) (now : Stamp) :
    shell.execute now (removal word) =
      match shell.filesystem.remove word true with
      | .ok changed =>
        ({ shell.withFilesystem changed with
            history := shell.history.record (Text.trim (removal word)) },
          ⟨false, false, [shell.shown (removal word)]⟩)
      | .error fault =>
        ({ shell with history := shell.history.record (Text.trim (removal word)) },
          ⟨false, false, [shell.shown (removal word),
            ⟨.error, "rm: cannot remove '" ++ word ++ "': " ++ fault.message⟩]⟩) := by
  have hflags : Invocation.spelled rm.policy ["-r", word] = .ok ["recursive"] := by
    rw [Invocation.spelled_cons (by decide), Invocation.spelled_argument hword.plain]
    rfl
  have hkept : Invocation.kept rm.policy ["-r", word] = [word] := by
    have hoption : isOption "-r" := by decide
    simp [rm, Invocation.kept, hoption, hword.plain]
  have hfind : Command.Builtin.registry.find? "rm" = some rm := rfl
  rw [h.execute_of_words (words_removal hword) hfind hflags now, hkept]
  cases hresult : shell.filesystem.remove word true with
  | ok changed =>
    have hrun : ∀ around, (rm.run around ⟨[word], ["recursive"]⟩).run shell.machine =
        .ok (.text "") ⟨changed, shell.processes⟩ :=
      fun around => Command.Builtin.run_rm rfl hresult around shell.processes
    rw [hrun]
    rfl
  | error fault =>
    have hrun : ∀ around, (rm.run around ⟨[word], ["recursive"]⟩).run shell.machine =
        .error (.cannotRemove word fault) shell.machine :=
      fun around => Command.Builtin.run_rm_of_error rfl hresult around shell.processes
    rw [hrun]
    simp only [Outcome.ofFault, message_cannotRemove]

/-! ## Completed names -/

/-- What becomes of an entry of the working directory when a word that begins its name and no other
is completed behind `rm -r`. -/
structure RemovesCompleted (shell : Shell) (now : Stamp) (children : List Node) (node : Node)
    (word : String) : Prop where
  completed : shell.complete (removal word) = .unique (removal (completed node))
  file : ¬node.isDirectory → Completion.completed node = node.name
  directory : node.isDirectory → Completion.completed node = node.name ++ "/"
  /-- The line with the name goes through: the entry is gone, and nothing else is. -/
  removed : ∃ before after, children = before ++ node :: after ∧
    shell.execute now (removal node.name) =
      ({ shell.withFilesystem (shell.filesystem.withChildren (before ++ after)) with
          history := shell.history.record (Text.trim (removal node.name)) },
        ⟨false, false, [shell.shown (removal node.name)]⟩) ∧
    (shell.filesystem.withChildren (before ++ after)).list none = .ok (before ++ after)
  /-- With a slash behind it there is no entry of the name, and only the history changes. -/
  refused : node.isDirectory → shell.execute now (removal (node.name ++ "/")) =
    ({ shell with history := shell.history.record (Text.trim (removal (node.name ++ "/"))) },
      ⟨false, false, [shell.shown (removal (node.name ++ "/")),
        ⟨.error, "rm: cannot remove '" ++ (node.name ++ "/") ++ "': No such file or directory"⟩]⟩)

section
variable {children : List Node} {node : Node} (hholds : Holds shell.filesystem children)
include hholds

theorem complete_removal (hword : word ≠ "") (hone : starting children word = [node])
    (hname : ∀ c ∈ node.name.toList, isBlank c = false) :
    shell.complete (removal word) = .unique (removal (completed node)) := by
  have hmem : node ∈ starting children word := by simp [hone]
  have hstarts := (Completion.mem_starting.1 hmem).2
  have hcut : Text.Cut (· == ' ') "rm -r " word := by
    refine ⟨by simp, fun c hc => beq_eq_false_iff_ne.2 ?_⟩
    rintro rfl
    exact absurd (hname ' ' (hstarts.subset hc)) (by decide)
  rw [Shell.complete, Filesystem.complete_eq hholds.list_eq, Completion.among_eq_unique, removal,
    Completion.lastWord_eq_of_cut hcut, Completion.head_eq_of_cut hcut]
  exact ⟨hword, node, hone, rfl⟩

theorem Standard.execute_removal_of_mem (h : shell.Standard) (hnode : node ∈ children)
    (hname : IsOperand node.name) (now : Stamp) :
    ∃ before after, children = before ++ node :: after ∧
      shell.execute now (removal node.name) =
        ({ shell.withFilesystem (shell.filesystem.withChildren (before ++ after)) with
            history := shell.history.record (Text.trim (removal node.name)) },
          ⟨false, false, [shell.shown (removal node.name)]⟩) ∧
      (shell.filesystem.withChildren (before ++ after)).list none = .ok (before ++ after) := by
  obtain ⟨before, after, rfl⟩ := List.append_of_mem hnode
  have hremoved : shell.filesystem.remove node.name true =
      .ok (shell.filesystem.withChildren (before ++ after)) :=
    hholds.apply_of_becomes (.removed (.inl rfl))
  refine ⟨before, after, rfl, ?_, hholds.list_withChildren _⟩
  rw [h.execute_removal hname, hremoved]

theorem Standard.execute_removal_of_not_mem (h : shell.Standard) (hword : IsOperand word)
    (hnone : ∀ other ∈ children, other.name ≠ word) (now : Stamp) :
    shell.execute now (removal word) =
      ({ shell with history := shell.history.record (Text.trim (removal word)) },
        ⟨false, false, [shell.shown (removal word),
          ⟨.error, "rm: cannot remove '" ++ word ++ "': No such file or directory"⟩]⟩) := by
  have hrefused : shell.filesystem.remove word true = .error (.notFound word) :=
    hholds.apply_of_refused (.notFound hnone)
  have hmessage : "rm: cannot remove '" ++ word ++ "': " ++
      (Filesystem.Fault.notFound word).message =
        "rm: cannot remove '" ++ word ++ "': No such file or directory" := by
    rw [String.append_assoc]
    rfl
  rw [h.execute_removal hword, hrefused]
  dsimp only
  rw [hmessage]

theorem Standard.removesCompleted (h : shell.Standard) (hword : word ≠ "")
    (hone : starting children word = [node])
    (hblank : ∀ c ∈ node.name.toList, isBlank c = false) (hplain : isOption node.name = false)
    (now : Stamp) : RemovesCompleted shell now children node word := by
  have hmem : node ∈ starting children word := by simp [hone]
  have hnode := (Completion.mem_starting.1 hmem).1
  have hname : IsOperand node.name := .of_isName (hholds.named node hnode) hblank hplain
  refine ⟨complete_removal hholds hword hone hblank, fun hfile => if_neg hfile,
    fun hdir => if_pos hdir, h.execute_removal_of_mem hholds hnode hname now, fun _ => ?_⟩
  refine h.execute_removal_of_not_mem hholds (hname.append (by simp [isBlank])) ?_ now
  -- no name has a slash in it
  rintro other hother heq
  obtain ⟨-, hslash, -⟩ := Path.isName_iff.1 (hholds.named other hother)
  exact hslash (by simp [heq, Path.separator])

end

/-- In every shell, a name of the working directory that is a word of its own can be removed by it,
and its completion is that name, but for the slash behind a directory. -/
theorem removesCompleted_run {user : String} (huser : Path.isName user) (clock : Nat → Stamp)
    (id : String) (events : List Event) (now : Stamp) {children : List Node} {node : Node}
    {word : String}
    (hlist : ((startAt clock id user).run events).filesystem.list none = .ok children)
    (hword : word ≠ "") (hone : starting children word = [node])
    (hblank : ∀ c ∈ node.name.toList, isBlank c = false) (hplain : isOption node.name = false) :
    RemovesCompleted ((startAt clock id user).run events) now children node word := by
  obtain ⟨found, hholds⟩ := (sound_run_startAt huser clock id events).exists_holds
  obtain rfl : found = children := Except.ok.inj (hholds.list_eq.symm.trans hlist)
  exact (standard_run_startAt clock id user events).removesCompleted hholds hword hone hblank hplain
    now

/-- The directory of the homes as a guest finds it. -/
def guestHomes : Node :=
  Filesystem.standardDirectory (fun n => .ofNanoseconds n) "guest" ("home", 2)

theorem name_guestHomes : guestHomes.name = "home" := rfl

theorem unbroken_guestHomes : ∀ c ∈ guestHomes.name.toList, isBlank c = false := by
  simp [name_guestHomes, isBlank]

/-- A guest can remove all homes, by a name that is completed with a slash. -/
theorem removesCompleted_run_guest :
    Path.isName "guest" ∧
      RemovesCompleted ((startAt (fun n => .ofNanoseconds n) "1" "guest").run [])
        (.ofNanoseconds 10) (Filesystem.initialTree (fun n => .ofNanoseconds n) "guest").children
        guestHomes "ho" :=
  ⟨by decide, removesCompleted_run (by decide) _ _ _ _ rfl (by decide) rfl unbroken_guestHomes
    (by decide)⟩

/-- The completed line of a directory is no line that removes it: a guest who completes `rm -r ho`
is told that there is no such file or directory. -/
theorem not_removes_completed_line :
    ¬∀ (user : String) (clock : Nat → Stamp) (id : String) (events : List Event) (now : Stamp)
      (shell : Shell) (children : List Node) (node : Node) (word : String),
      Path.isName user → shell = (startAt clock id user).run events →
        shell.filesystem.list none = .ok children → word ≠ "" → starting children word = [node] →
        (∀ c ∈ node.name.toList, isBlank c = false) → isOption node.name = false →
          ∃ line before after, shell.complete (removal word) = .unique line ∧
            children = before ++ node :: after ∧ ¬(shell.execute now line).2.failed ∧
            (shell.execute now line).1.filesystem =
              shell.filesystem.withChildren (before ++ after) := by
  intro h
  obtain ⟨line, before, after, hline, -, hdone, -⟩ := h "guest" (fun n => .ofNanoseconds n) "1" []
    (.ofNanoseconds 10) _ _ guestHomes "ho" (by decide) rfl rfl (by decide) rfl unbroken_guestHomes
    (by decide)
  have hcompleted : ((startAt (fun n => .ofNanoseconds n) "1" "guest").run []).complete
      (removal "ho") = .unique "rm -r home/" := rfl
  obtain rfl : "rm -r home/" = line := Completion.unique.inj (hcompleted.symm.trans hline)
  exact hdone (by decide +kernel)

end Shell

end PocketShell
