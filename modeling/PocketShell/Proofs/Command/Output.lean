import PocketShell.Proofs.Command.Builtin
import PocketShell.Proofs.Command.Invocation
import PocketShell.Proofs.Digits

/-!
# What commands answer with

Only `clear` asks for what is shown to be wiped, and only `exit` for the end of the session; neither
of them can fail. A command that fails says so in words of its own and in those that it was given.
It breaks no line with them, unless the name of the user does, whose home it may be unable to find.
-/

namespace PocketShell

open PocketShell.Change (Ends ends_get_bind ends_modify ends_pure ends_reading ends_throw)
open Text (BreaksAs breaksAs_append breaksAs_ofList)

/-! ## The wording of faults -/

namespace Text

variable {user : String}

theorem breaksAs_decimal (n : Nat) : BreaksAs user (decimal n) :=
  breaksAs_of_forall fun _ hc => not_isLineBreak_of_isDigit (isDigit_of_mem_digits hc)

theorem BreaksAs.between {text before after : String} (h : BreaksAs user text)
    (hbefore : BreaksAs user before) (hafter : BreaksAs user after) :
    BreaksAs user (before ++ text ++ after) :=
  breaksAs_append.2 ⟨breaksAs_append.2 ⟨hbefore, h⟩, hafter⟩

end Text

/-- The texts in the wording of a fault of the tree that are not the same for all of its kind. -/
def Filesystem.Fault.quoted : Fault → List String
  | malformedSnapshot reason => [reason.message]
  | _ => []

theorem Filesystem.Fault.breaksAs_message {user : String} {fault : Fault}
    (h : ∀ text ∈ fault.quoted, BreaksAs user text) : BreaksAs user fault.message := by
  cases fault with
  | notFound | alreadyExists | isADirectory | notEmpty | invalidName | tooDeep | unwritableTime =>
    exact breaksAs_ofList (by decide)
  | malformedSnapshot reason =>
    exact breaksAs_append.2 ⟨breaksAs_ofList (by decide), h _ List.mem_cons_self⟩

namespace Command.Fault

/-- The texts in the wording of a fault that are not the same for all of its kind. -/
def quoted : Fault → List String
  | missingOperand text | unknownOption text | noSuchFile text | noSuchDirectory text
  | cannotAccess text | invalidPid text | noHelpTopic text => [text]
  | cannotCreateDirectory name reason | cannotTouch name reason | cannotRemove name reason =>
    name :: reason.quoted
  | noSuchProcess pid | protectedProcess pid => [Text.decimal pid]

/-- The wording of a fault breaks no line unless what it quotes does. -/
theorem breaksAs_message {user : String} {fault : Fault}
    (h : ∀ text ∈ fault.quoted, BreaksAs user text) : BreaksAs user fault.message := by
  have hfirst : ∀ text, fault.quoted.head? = some text → BreaksAs user text :=
    fun text htext => h text (List.mem_of_mem_head? htext)
  cases fault with
  | missingOperand operand => exact breaksAs_append.2 ⟨breaksAs_ofList (by decide), hfirst _ rfl⟩
  | unknownOption | cannotAccess | invalidPid | noSuchProcess | protectedProcess | noHelpTopic =>
    exact (hfirst _ rfl).between (breaksAs_ofList (by decide)) (breaksAs_ofList (by decide))
  | noSuchFile | noSuchDirectory =>
    exact breaksAs_append.2 ⟨hfirst _ rfl, breaksAs_ofList (by decide)⟩
  | cannotCreateDirectory name reason | cannotTouch name reason | cannotRemove name reason =>
    have hreason : BreaksAs user reason.message :=
      Filesystem.Fault.breaksAs_message fun text htext => h text (List.mem_cons_of_mem _ htext)
    exact breaksAs_append.2
      ⟨(hfirst _ rfl).between (breaksAs_ofList (by decide)) (breaksAs_ofList (by decide)), hreason⟩

end Command.Fault

/-! ## Operations on the tree -/

namespace Filesystem.Change

/-- The change fails for no reason that quotes anything. -/
abbrev EndsPlainly {α : Type} (change : PocketShell.Change Filesystem Fault α) (fs : Filesystem) :
    Prop :=
  Ends (fun _ => True) (fun fault => fault.quoted = []) change fs

variable {fs : Filesystem}

theorem ends_checkName (name : String) (fs : Filesystem) :
    EndsPlainly (PocketShell.Change.reading fun _ => checkName name) fs := by
  refine ends_reading ?_
  rw [checkName]
  split
  · trivial
  · exact rfl

theorem ends_workingDirectory (fs : Filesystem) :
    EndsPlainly (PocketShell.Change.reading workingDirectory) fs := by
  refine ends_reading ?_
  rw [workingDirectory]
  split
  · trivial
  · exact rfl

theorem ends_changeDirectory (path : String) : EndsPlainly (changeDirectory path) fs := by
  have hreads : EndsPlainly (PocketShell.Change.reading (·.segmentsOf path)) fs := by
    refine ends_reading ?_
    rw [segmentsOf]
    split
    · trivial
    · exact rfl
  exact hreads.bind fun _ _ fs => ends_modify trivial _

theorem ends_insert (node : Node) : EndsPlainly (insert node) fs := by
  refine (ends_workingDirectory fs).bind fun directory _ fs => ?_
  split
  · exact ends_modify trivial _
  · exact ends_throw rfl

theorem ends_createDirectory (now : Time.Stamp) (name : String) :
    EndsPlainly (createDirectory now name) fs := by
  refine (ends_checkName name fs).bind fun _ _ fs => ends_get_bind ?_
  split
  · exact ends_throw rfl
  · exact ends_get_bind (ends_insert _)

theorem ends_touch (now : Time.Stamp) (name : String) : EndsPlainly (touch now name) fs := by
  refine (ends_checkName name fs).bind fun _ _ fs => ?_
  refine (ends_workingDirectory fs).bind fun directory _ fs => ?_
  split
  · exact ends_modify trivial _
  · exact ends_get_bind (ends_insert _)

theorem ends_remove (name : String) (recursive : Bool) :
    EndsPlainly (remove name recursive) fs := by
  refine (ends_workingDirectory fs).bind fun directory _ fs => ?_
  split
  · exact ends_throw rfl
  · split
    · exact ends_throw rfl
    · exact ends_modify trivial _

end Filesystem.Change

/-! ## Commands -/

namespace Command

/-- What the command of a name answers with: one of the two signals if it is named for it. -/
structure Signals (name : String) (output : Output) : Prop where
  clear : output = .clear ↔ name = "clear"
  exit : output = .exit ↔ name = "exit"

/-- Why the command of a name fails: neither of those that signal does, and what is quoted breaks
no line that the name of the user does not. -/
structure Refuses (user name : String) (fault : Fault) : Prop where
  not_clear : name ≠ "clear"
  not_exit : name ≠ "exit"
  quoted : ∀ text ∈ fault.quoted, BreaksAs user text

namespace Builtin

variable (around : Surroundings) {invocation : Invocation} {machine : Machine}
  {user name : String}

theorem ends_operand (hclear : name ≠ "clear") (hexit : name ≠ "exit")
    (hwords : ∀ word ∈ invocation.arguments, BreaksAs user word) {description : String}
    (hdescription : BreaksAs user description) :
    Ends (BreaksAs user) (Refuses user name) (operand invocation description) machine := by
  rw [operand, Invocation.first?]
  split
  · rename_i word hword
    exact ends_pure (hwords word (List.mem_of_mem_head? hword))
  · exact ends_throw ⟨hclear, hexit, List.forall_mem_singleton.2 hdescription⟩

section
variable (hclear : name ≠ "clear") (hexit : name ≠ "exit")
include hclear hexit

theorem signals_text (text : String) : Signals name (.text text) :=
  ⟨iff_of_false nofun hclear, iff_of_false nofun hexit⟩

theorem ends_onTree {change : Filesystem.Change} {blame : Filesystem.Fault → Fault}
    (h : Filesystem.Change.EndsPlainly change machine.filesystem)
    (hblame : ∀ reason, reason.quoted = [] → ∀ text ∈ (blame reason).quoted, BreaksAs user text) :
    Ends (Signals name) (Refuses user name) (onTree change blame) machine := by
  have hchange : Ends (fun _ => True) (fun reason => Refuses user name (blame reason)) change
      machine.filesystem :=
    h.mono (fun _ _ => trivial) fun reason hreason => ⟨hclear, hexit, hblame reason hreason⟩
  exact (hchange.within.adaptExcept).bind fun _ _ _ => ends_pure (signals_text hclear hexit _)

theorem ends_onProcesses (change : ProcessTable.Change) {blame : ProcessTable.Fault → Fault}
    (hblame : ∀ reason, ∀ text ∈ (blame reason).quoted, BreaksAs user text) :
    Ends (Signals name) (Refuses user name) (onProcesses change blame) machine := by
  have hchange : Ends (fun _ => True) (fun reason => Refuses user name (blame reason)) change
      machine.processes :=
    Change.ends_trivial.mono (fun _ _ => trivial) fun reason _ => ⟨hclear, hexit, hblame reason⟩
  exact (hchange.within.adaptExcept).bind fun _ _ _ => ends_pure (signals_text hclear hexit _)

variable (hwords : ∀ word ∈ invocation.arguments, BreaksAs user word)
include hwords

/-- A command that changes the tree by an operation on its first argument. -/
theorem ends_onOperand {description : String} (hdescription : BreaksAs user description)
    {change : String → Filesystem.Change}
    (hchange : ∀ word fs, Filesystem.Change.EndsPlainly (change word) fs)
    {blame : String → Filesystem.Fault → Fault}
    (hblame : ∀ word reason, (blame word reason).quoted = word :: reason.quoted) :
    Ends (Signals name) (Refuses user name)
      (operand invocation description >>= fun word => onTree (change word) (blame word))
      machine := by
  refine (ends_operand hclear hexit hwords hdescription).bind fun word hword machine => ?_
  refine ends_onTree hclear hexit (hchange word _) fun reason hreason => ?_
  rw [hblame, hreason]
  exact List.forall_mem_singleton.2 hword

theorem ends_ls : Ends (Signals name) (Refuses user name) (ls.run around invocation) machine := by
  refine ends_get_bind ?_
  split
  · refine ends_throw ⟨hclear, hexit, List.forall_mem_singleton.2 ?_⟩
    cases hfirst : invocation.first? with
    | none => exact breaksAs_ofList (by decide)
    | some word => exact hwords word (List.mem_of_mem_head? hfirst)
  · exact ends_pure (signals_text hclear hexit _)
  · exact ends_pure (signals_text hclear hexit _)

theorem ends_cd (huser : BreaksAs user machine.filesystem.user) :
    Ends (Signals name) (Refuses user name) (cd.run around invocation) machine := by
  refine ends_get_bind (ends_onTree hclear hexit (Filesystem.Change.ends_changeDirectory _) ?_)
  refine fun _ _ => List.forall_mem_singleton.2 ?_
  cases hfirst : invocation.first? with
  | none => exact breaksAs_append.2 ⟨breaksAs_ofList (by decide), huser⟩
  | some word => exact hwords word (List.mem_of_mem_head? hfirst)

theorem ends_cat :
    Ends (Signals name) (Refuses user name) (cat.run around invocation) machine := by
  have hdescription : BreaksAs user "file operand" := breaksAs_ofList (by decide)
  refine (ends_operand hclear hexit hwords hdescription).bind fun path hpath machine => ?_
  refine ends_get_bind ?_
  split
  · exact ends_pure (signals_text hclear hexit _)
  · exact ends_throw ⟨hclear, hexit, List.forall_mem_singleton.2 hpath⟩

theorem ends_kill :
    Ends (Signals name) (Refuses user name) (kill.run around invocation) machine := by
  have hdescription : BreaksAs user "pid operand" := breaksAs_ofList (by decide)
  refine (ends_operand hclear hexit hwords hdescription).bind fun word hword machine => ?_
  split
  · rename_i pid hpid
    refine ends_get_bind ?_
    have hquoted : ∀ text ∈ [Text.decimal pid], BreaksAs user text :=
      List.forall_mem_singleton.2 (Text.breaksAs_decimal pid)
    split
    · split
      · exact ends_throw ⟨hclear, hexit, hquoted⟩
      · exact ends_onProcesses hclear hexit _ fun _ => hquoted
    · exact ends_throw ⟨hclear, hexit, hquoted⟩
  · exact ends_throw ⟨hclear, hexit, List.forall_mem_singleton.2 hword⟩

theorem ends_help :
    Ends (Signals name) (Refuses user name) (help.run around invocation) machine := by
  simp only [help]
  split
  · exact ends_pure (signals_text hclear hexit _)
  · rename_i topic htopic
    split
    · exact ends_pure (signals_text hclear hexit _)
    · exact ends_throw ⟨hclear, hexit,
        List.forall_mem_singleton.2 (hwords topic (List.mem_of_mem_head? htopic))⟩

end

/-- A command signals what it is named for, and breaks no line when it fails. -/
theorem ends_run {command : Command} (hcommand : command ∈ all)
    (hwords : ∀ word ∈ invocation.arguments, BreaksAs user word)
    (huser : BreaksAs user machine.filesystem.user) :
    Ends (Signals command.name) (Refuses user command.name) (command.run around invocation)
      machine := by
  cases hcommand using all_cases with
  | ls => exact ends_ls around (by decide) (by decide) hwords
  | cd => exact ends_cd around (by decide) (by decide) hwords huser
  | mkdir =>
    exact ends_onOperand (by decide) (by decide) hwords (breaksAs_ofList (by decide))
      (fun _ _ => Filesystem.Change.ends_createDirectory around.now _) fun _ _ => rfl
  | touch =>
    exact ends_onOperand (by decide) (by decide) hwords (breaksAs_ofList (by decide))
      (fun _ _ => Filesystem.Change.ends_touch around.now _) fun _ _ => rfl
  | cat => exact ends_cat around (by decide) (by decide) hwords
  | rm =>
    exact ends_onOperand (by decide) (by decide) hwords (breaksAs_ofList (by decide))
      (fun _ _ => Filesystem.Change.ends_remove _ _) fun _ _ => rfl
  | pwd | ps => exact ends_get_bind (ends_pure (signals_text (by decide) (by decide) _))
  | echo | history => exact ends_pure (signals_text (by decide) (by decide) _)
  | kill => exact ends_kill around (by decide) (by decide) hwords
  | help => exact ends_help around (by decide) (by decide) hwords
  | clear => exact ends_pure ⟨iff_of_true rfl rfl, iff_of_false nofun (by decide)⟩
  | exit => exact ends_pure ⟨iff_of_false nofun (by decide), iff_of_true rfl rfl⟩

end Builtin

end Command

end PocketShell
