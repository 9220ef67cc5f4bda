import PocketShell.Proofs.Command.Kill
import PocketShell.Proofs.Shell.Reachable

/-!
# What lines do to the processes

Only lines with `kill` change processes, and all that such a line can do is to take the process from
the table that it asks for. As that one is never protected, no sequence of lines harms a protected
process.
-/

namespace PocketShell.Shell

open Time (Stamp)
open Command.Builtin (victimOf Kills Refusal)
open ProcessTable (Fresh Loses Numbered Spared boot identifiers)

variable {shell : Shell} {text : String} {ids : List String}

/-! ## One line -/

theorem not_blank_of_kill (hkill : (lineOf text).command = "kill") :
    ¬(Text.trim text).isEmpty := by
  intro hblank
  rw [lineOf, String.isEmpty_iff.1 hblank] at hkill
  exact absurd hkill (by decide)

/-- What a line with `kill` does, and what it shows. -/
theorem Standard.execute_kill (h : shell.Standard) (hkill : (lineOf text).command = "kill")
    (now : Stamp) :
    shell.execute now text = match victimOf shell.processes (lineOf text) with
      | .ok process =>
        ({ shell.withProcesses (shell.processes.after (.kill now process.id)) with
            history := shell.history.record (Text.trim text) },
          .ofOutput (shell.shown text) (.text ""))
      | .error fault => ({ shell with history := shell.history.record (Text.trim text) },
          .ofFault (shell.shown text) (.commandFailed "kill" fault)) := by
  have hrun := Registry.dispatch_kill hkill now (shell.history.record (Text.trim text))
    shell.machine
  rw [← show shell.registry = Command.Builtin.registry from h] at hrun
  rw [execute_eq (not_blank_of_kill hkill), hrun, Shell.processes]
  cases victimOf shell.machine.processes (lineOf text) <;> rfl

theorem Standard.processes_of_ne_kill (h : shell.Standard) (hkill : (lineOf text).command ≠ "kill")
    (now : Stamp) : (shell.execute now text).1.processes = shell.processes := by
  by_cases hblank : (Text.trim text).isEmpty
  · rw [execute_of_blank hblank]
  · rw [execute_of_not_blank hblank, h]
    exact Registry.processes_dispatch hkill now (shell.history.record (Text.trim text))
      shell.machine

/-- What a line does to the processes: nothing, or it kills the one that it asks for. -/
theorem Standard.processes_execute (h : shell.Standard) (now : Stamp) (text : String) :
    (shell.execute now text).1.processes = shell.processes ∨
      (lineOf text).command = "kill" ∧ ∃ id,
        (shell.execute now text).1.processes = shell.processes.after (.kill now id) := by
  by_cases hkill : (lineOf text).command = "kill"
  · rw [h.execute_kill hkill]
    cases victimOf shell.processes (lineOf text) with
    | ok process => exact .inr ⟨hkill, process.id, rfl⟩
    | error fault => exact .inl rfl
  · exact .inl (h.processes_of_ne_kill hkill now)

/-- What a line comes to as to the processes. -/
structure Strikes (text : String) (shell : Shell) (result : Shell × Outcome) : Prop where
  /-- Only lines with `kill` change processes. -/
  others : (lineOf text).command ≠ "kill" → result.1.processes = shell.processes
  /-- The process that is asked for goes, and the line shows nothing else. -/
  killed : ∀ process, Kills shell.processes (lineOf text) process →
    Loses process shell.processes result.1.processes ∧
      result.2 = .ofOutput (shell.shown text) (.text "")
  /-- Any other line with `kill` shows why it is refused. -/
  refused : (lineOf text).command = "kill" →
    (∀ process, ¬Kills shell.processes (lineOf text) process) →
    result.1.processes = shell.processes ∧ ∃ fault, Refusal shell.processes (lineOf text) fault ∧
      result.2 = .ofFault (shell.shown text) (.commandFailed "kill" fault)

theorem Standard.strikes (h : shell.Standard)
    (hids : (shell.processes.processes.map ProcessEntry.id).Nodup)
    (hpids : (shell.processes.processes.map ProcessEntry.pid).Nodup) (now : Stamp)
    (text : String) : Strikes text shell (shell.execute now text) := by
  constructor
  · intro hother
    exact h.processes_of_ne_kill hother now
  · intro process hkills
    rw [h.execute_kill hkills.command, hkills.victimOf_eq hpids]
    exact ⟨ProcessTable.loses_after_kill hids hkills.listed hkills.unprotected now, rfl⟩
  · intro hkill hnone
    rw [h.execute_kill hkill]
    cases hvictim : victimOf shell.processes (lineOf text) with
    | ok process => exact absurd (Command.Builtin.kills_of_victimOf hkill hvictim) (hnone process)
    | error fault => exact ⟨rfl, fault, Command.Builtin.refusal_of_victimOf hkill hvictim, rfl⟩

namespace Strikes

variable {result : Shell × Outcome}

/-- A line kills a process, or it leaves all of them alone. -/
theorem killed_or_same (h : Strikes text shell result) :
    (∃ process, Kills shell.processes (lineOf text) process ∧
      Loses process shell.processes result.1.processes) ∨
      result.1.processes = shell.processes := by
  by_cases hkill : (lineOf text).command = "kill"
  · by_cases hkills : ∃ process, Kills shell.processes (lineOf text) process
    · obtain ⟨process, hprocess⟩ := hkills
      exact .inl ⟨process, hprocess, (h.killed process hprocess).1⟩
    · exact .inr (h.refused hkill (not_exists.1 hkills)).1
  · exact .inr (h.others hkill)

theorem spared (h : Strikes text shell result) : Spared shell.processes result.1.processes := by
  rcases h.killed_or_same with ⟨process, hkills, hloses⟩ | hsame
  · exact hloses.spared hkills.unprotected
  · rw [hsame]
    exact .refl _

/-- A process stays listed if the line does not ask for it. -/
theorem mem {process : ProcessEntry} (h : Strikes text shell result)
    (hmem : process ∈ shell.processes.processes)
    (hspared : ¬Kills shell.processes (lineOf text) process) :
    process ∈ result.1.processes.processes := by
  rcases h.killed_or_same with ⟨victim, hkills, hloses⟩ | hsame
  · refine hloses.mem hmem ?_
    rintro rfl
    exact hspared hkills
  · rw [hsame]
    exact hmem

end Strikes

/-! ## Any number of lines -/

/-- A shell with the commands of every shell, whose table is numbered. -/
structure Regular (ids : List String) (shell : Shell) : Prop where
  standard : shell.Standard
  numbered : Numbered ids shell.processes

namespace Regular

theorem execute (h : Regular ids shell) (hids : ids.Nodup) (now : Stamp) (text : String) :
    Regular ids (shell.execute now text).1 := by
  refine ⟨h.standard.execute now text, ?_⟩
  rcases h.standard.processes_execute now text with hsame | ⟨-, id, hkilled⟩
  · rw [hsame]
    exact h.numbered
  · rw [hkilled]
    exact h.numbered.replaces (ProcessTable.replaces_after (h.numbered.nodup_id hids) rfl)

theorem executeAll (h : Regular ids shell) (hids : ids.Nodup) (lines : List (Stamp × String)) :
    Regular ids (shell.executeAll lines) := by
  induction lines generalizing shell with
  | nil => exact h
  | cons line rest ih =>
    rw [executeAll_cons]
    exact ih (h.execute hids line.1 line.2)

theorem strikes (h : Regular ids shell) (hids : ids.Nodup) (now : Stamp) (text : String) :
    Strikes text shell (shell.execute now text) :=
  h.standard.strikes (h.numbered.nodup_id hids) h.numbered.nodup_pid now text

theorem spared (h : Regular ids shell) (hids : ids.Nodup) (lines : List (Stamp × String)) :
    Spared shell.processes (shell.executeAll lines).processes := by
  induction lines generalizing shell with
  | nil => exact .refl _
  | cons line rest ih =>
    rw [executeAll_cons]
    exact (h.strikes hids line.1 line.2).spared.trans (ih (h.execute hids line.1 line.2))

/-- Behind every process that is gone after some lines there is one of them that asked for it. -/
theorem caused (h : Regular ids shell) (hids : ids.Nodup) (lines : List (Stamp × String))
    {process : ProcessEntry} (hlisted : process ∈ shell.processes.processes)
    (hgone : process ∉ (shell.executeAll lines).processes.processes) :
    ∃ earlier now text later, lines = earlier ++ (now, text) :: later ∧
      Kills (shell.executeAll earlier).processes (lineOf text) process := by
  induction lines generalizing shell with
  | nil => exact absurd hlisted hgone
  | cons line rest ih =>
    rw [executeAll_cons] at hgone
    by_cases hkills : Kills shell.processes (lineOf line.2) process
    · exact ⟨[], line.1, line.2, rest, rfl, hkills⟩
    · have hleft := (h.strikes hids line.1 line.2).mem hlisted hkills
      obtain ⟨earlier, now, text, later, hsplit, hcause⟩ :=
        ih (h.execute hids line.1 line.2) hleft hgone
      refine ⟨line :: earlier, now, text, later, ?_, ?_⟩
      · rw [hsplit, List.cons_append]
      · rwa [executeAll_cons]

end Regular

/-- What any lines come to as to the processes. -/
structure Harmless (shell : Shell) (lines : List (Stamp × String)) : Prop where
  spared : Spared shell.processes (shell.executeAll lines).processes
  strikes : ∀ earlier now text later, lines = earlier ++ (now, text) :: later →
    Strikes text (shell.executeAll earlier) ((shell.executeAll earlier).execute now text)
  caused : ∀ process ∈ shell.processes.processes,
    process ∉ (shell.executeAll lines).processes.processes →
      ∃ earlier now text later, lines = earlier ++ (now, text) :: later ∧
        Kills (shell.executeAll earlier).processes (lineOf text) process

/-- No lines harm a protected process, or any process that they do not ask to kill. -/
theorem harmless_executeAll {id : String} {start : Stamp}
    {operations : List ProcessTable.Operation} (hstandard : shell.Standard)
    (htable : shell.processes = (boot id start).run operations)
    (hfresh : Fresh (identifiers id operations)) (lines : List (Stamp × String)) :
    Harmless shell lines := by
  have hregular : Regular (identifiers id operations) shell := by
    refine ⟨hstandard, ?_⟩
    rw [htable]
    exact ProcessTable.numbered_run hfresh
  constructor
  · exact hregular.spared hfresh.nodup lines
  · intro earlier now text later _
    exact (hregular.executeAll hfresh.nodup earlier).strikes hfresh.nodup now text
  · intro process hlisted hgone
    exact hregular.caused hfresh.nodup lines hlisted hgone

/-- A shell in which a job was started. -/
def shellWithJob : Shell :=
  (startAt (fun n => .ofNanoseconds n) "1" "guest").run
    [.process (.start "2" (.ofNanoseconds 10) "job" "sleep" "")]

/-- The process of the system stays, and the job is gone once it was asked for. -/
theorem harmless_executeAll_job :
    Fresh (identifiers "1" [.start "2" (.ofNanoseconds 10) "job" "sleep" ""]) ∧
      Harmless shellWithJob
        [(.ofNanoseconds 11, "kill 1"), (.ofNanoseconds 12, " kill +02 now")] ∧
      (shellWithJob.executeAll [(.ofNanoseconds 11, "kill 1"),
        (.ofNanoseconds 12, " kill +02 now")]).processes.processes.map ProcessEntry.pid = [1] := by
  have hfresh : Fresh (identifiers "1" [.start "2" (.ofNanoseconds 10) "job" "sleep" ""]) :=
    ⟨by decide, by decide⟩
  have htable : shellWithJob.processes = (boot "1" (.ofNanoseconds 9)).run
      [.start "2" (.ofNanoseconds 10) "job" "sleep" ""] := rfl
  have hgone : (shellWithJob.executeAll [(.ofNanoseconds 11, "kill 1"),
      (.ofNanoseconds 12, " kill +02 now")]).processes.processes.map ProcessEntry.pid = [1] := by
    decide +kernel
  exact ⟨hfresh, harmless_executeAll (standard_run_startAt _ _ _ _) htable hfresh _, hgone⟩

end PocketShell.Shell
