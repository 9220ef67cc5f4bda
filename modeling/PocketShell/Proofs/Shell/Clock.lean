import PocketShell.Proofs.Command.Untimed
import PocketShell.Proofs.Shell.Processes

/-!
# The clock shows only where it is shown

A shell without its times is changed by a line, at whatever time, as the shell itself is. So two
sessions of a user that go through the same lines by different clocks differ in nothing but times,
and in the identifiers of processes; and a line shows the same in both unless it asks for times.
-/

namespace PocketShell.Shell

open Command.Builtin (ShowsTimes)
open PocketShell.Change (Mirrors)
open Time (Stamp)

variable {shell other : Shell} {text : String} {others : ProcessTable → ProcessTable}

/-! ## One line -/

/-- The shell without the times in its tree, and with others in place of its processes. -/
def viewed (others : ProcessTable → ProcessTable) (shell : Shell) : Shell :=
  { shell with machine := shell.machine.untimed others }

/-- The shell without its times and the identifiers of its processes. -/
def untimed (shell : Shell) : Shell :=
  { shell with machine := shell.machine.untimed ProcessTable.untimed }

theorem untimed_eq (shell : Shell) : shell.untimed = shell.viewed ProcessTable.untimed := rfl

/-- A shell with the commands of every shell, whose processes are all protected. -/
structure Guarded (shell : Shell) : Prop where
  standard : shell.Standard
  isProtected : ∀ process ∈ shell.processes.processes, process.isProtected

/-- Nobody is killed where all are protected. -/
theorem Guarded.processes_execute (h : shell.Guarded) (now : Stamp) (text : String) :
    (shell.execute now text).1.processes = shell.processes := by
  by_cases hkill : (lineOf text).command = "kill"
  · obtain ⟨fault, hvictim⟩ := Command.Builtin.victimOf_of_protected h.isProtected hkill
    rw [h.standard.execute_kill hkill, hvictim]
    rfl
  · exact h.standard.processes_of_ne_kill hkill now

theorem Guarded.execute (h : shell.Guarded) (now : Stamp) (text : String) :
    (shell.execute now text).1.Guarded := by
  refine ⟨h.standard.execute now text, ?_⟩
  rw [h.processes_execute]
  exact h.isProtected

/-- Where all processes are protected, the others that stand in their place are protected too. -/
def Guards (others : ProcessTable → ProcessTable) : Prop :=
  ∀ table, (∀ process ∈ table.processes, process.isProtected) →
    ∀ process ∈ (others table).processes, process.isProtected

theorem guards_untimed : Guards ProcessTable.untimed := by
  intro table hprotected process hprocess
  obtain ⟨timed, htimed, rfl⟩ := List.mem_map.1 hprocess
  exact hprotected timed htimed

theorem Guarded.viewed (h : shell.Guarded) (hothers : Guards others) :
    (shell.viewed others).Guarded :=
  ⟨h.standard, hothers shell.processes h.isProtected⟩

/-- A line that shows no times is handed to its command without them. -/
theorem Guarded.mirrors_dispatch (h : shell.Guarded) (htimes : ¬ShowsTimes (lineOf text))
    (now : Stamp) :
    Mirrors (Machine.untimed ProcessTable.untimed) id
      (shell.registry.dispatch now (shell.history.record (Text.trim text)) (lineOf text))
      (shell.registry.dispatch .epoch (shell.history.record (Text.trim text)) (lineOf text))
      shell.machine := by
  rw [h.standard]
  by_cases hkill : (lineOf text).command = "kill"
  · exact Registry.mirrors_dispatch_kill hkill now _ h.isProtected
  · exact Registry.mirrors_dispatch hkill htimes _ now _ _

/-- What shows times changes nothing. -/
theorem Standard.after_dispatch_of_showsTimes (h : shell.Standard)
    (htimes : ShowsTimes (lineOf text)) (now : Stamp) (history : History) (machine : Machine) :
    (shell.registry.dispatch now history (lineOf text)).after machine = machine := by
  rw [h]
  cases htimes with
  | ps hcommand =>
    have hfind : Command.Builtin.registry.find? (lineOf text).command =
        some Command.Builtin.ps := by rw [hcommand]; rfl
    exact Registry.steady_dispatch hfind (by simp [Command.Builtin.looking]) now history machine
  | ls hcommand =>
    have hfind : Command.Builtin.registry.find? (lineOf text).command =
        some Command.Builtin.ls := by rw [hcommand]; rfl
    exact Registry.steady_dispatch hfind (by simp [Command.Builtin.looking]) now history machine

/-- Nor does `kill` where all are protected. -/
theorem Guarded.after_dispatch_of_kill (h : shell.Guarded)
    (hkill : (lineOf text).command = "kill") (now : Stamp) (history : History) :
    (shell.registry.dispatch now history (lineOf text)).after shell.machine = shell.machine := by
  obtain ⟨fault, hvictim⟩ := Command.Builtin.victimOf_of_protected h.isProtected hkill
  rw [h.standard, Change.after, Registry.dispatch_kill hkill]
  rw [show shell.machine.processes = shell.processes from rfl, hvictim]

/-- A command does to the view of a machine what it does to the machine. -/
theorem Guarded.after_dispatch (h : shell.Guarded) (hothers : Guards others) (now : Stamp)
    (text : String) :
    (shell.registry.dispatch .epoch (shell.history.record (Text.trim text)) (lineOf text)).after
        (shell.machine.untimed others) =
      ((shell.registry.dispatch now (shell.history.record (Text.trim text)) (lineOf text)).after
        shell.machine).untimed others := by
  by_cases htimes : ShowsTimes (lineOf text)
  · rw [h.standard.after_dispatch_of_showsTimes htimes,
      h.standard.after_dispatch_of_showsTimes htimes]
  · by_cases hkill : (lineOf text).command = "kill"
    · rw [h.after_dispatch_of_kill hkill]
      exact (h.viewed hothers).after_dispatch_of_kill hkill _ _
    · rw [h.standard]
      exact (Registry.mirrors_dispatch hkill htimes others now _ shell.machine).after

/-- A line changes the view of a shell as it changes the shell. -/
theorem Guarded.viewed_execute (h : shell.Guarded) (hothers : Guards others) (now : Stamp)
    (text : String) :
    (shell.execute now text).1.viewed others = ((shell.viewed others).execute .epoch text).1 := by
  by_cases hblank : (Text.trim text).isEmpty
  · rw [execute_of_blank hblank, execute_of_blank hblank]
  · rw [execute_of_not_blank hblank, execute_of_not_blank hblank]
    exact congrArg (Shell.mk · shell.registry (shell.history.record (Text.trim text)))
      (h.after_dispatch hothers now text).symm

/-- A line whose command is mirrored shows the same in the view. -/
theorem outcome_viewed {now : Stamp} (h : Mirrors (Machine.untimed others) id
      (shell.registry.dispatch now (shell.history.record (Text.trim text)) (lineOf text))
      (shell.registry.dispatch .epoch (shell.history.record (Text.trim text)) (lineOf text))
      shell.machine) :
    ((shell.viewed others).execute .epoch text).2 = (shell.execute now text).2 := by
  by_cases hblank : (Text.trim text).isEmpty
  · rw [execute_of_blank hblank, execute_of_blank hblank]
  · rw [Mirrors] at h
    rw [execute_eq hblank, execute_eq hblank, viewed]
    dsimp only
    rw [h]
    cases (shell.registry.dispatch now (shell.history.record (Text.trim text))
      (lineOf text)).run shell.machine <;> rfl

/-- A line that does not ask for times shows the same without them. -/
theorem Guarded.outcome_untimed (h : shell.Guarded) (htimes : ¬ShowsTimes (lineOf text))
    (now : Stamp) : (shell.untimed.execute .epoch text).2 = (shell.execute now text).2 :=
  outcome_viewed (h.mirrors_dispatch htimes now)

/-! ## Sessions -/

/-- The shell of a user without a saved session, after some lines. The clock is read for the new
shell first, and then once for each line. -/
def sessionAt (clock : Nat → Stamp) (id user : String) (texts : List String) : Shell :=
  (startAt clock id user).executeAll
    (texts.zipIdx.map fun line => (clock (startReadings + line.2), line.1))

theorem untimed_startAt (clock : Nat → Stamp) (id user : String) :
    (startAt clock id user).untimed = startAt (fun _ => .epoch) "" user :=
  congrArg
    (fun filesystem => Shell.mk ⟨filesystem, .boot "" .epoch⟩ Command.Builtin.registry .empty)
    (Filesystem.untimed_startAt clock user)

theorem guarded_startAt (clock : Nat → Stamp) (id user : String) :
    (startAt clock id user).Guarded := by
  refine ⟨rfl, fun process hprocess => ?_⟩
  obtain rfl := List.mem_singleton.1 hprocess
  exact show ProcessEntry.isProtectedName "system-init" by decide

theorem Guarded.executeAll (h : shell.Guarded) (hothers : Guards others)
    (lines : List (Stamp × String)) :
    (shell.executeAll lines).Guarded ∧ (shell.executeAll lines).viewed others =
      (shell.viewed others).executeAll (lines.map fun line => (.epoch, line.2)) := by
  induction lines generalizing shell with
  | nil => exact ⟨h, rfl⟩
  | cons line rest ih =>
    obtain ⟨hguarded, hviewed⟩ := ih (h.execute line.1 line.2)
    rw [List.map_cons, executeAll_cons, executeAll_cons, ← h.viewed_execute hothers line.1]
    exact ⟨hguarded, hviewed⟩

theorem guarded_sessionAt (clock : Nat → Stamp) (id user : String) (texts : List String) :
    (sessionAt clock id user texts).Guarded :=
  ((guarded_startAt clock id user).executeAll guards_untimed _).1

/-- Without its times a session depends on the user and the lines only. -/
theorem untimed_sessionAt (clock : Nat → Stamp) (id user : String) (texts : List String) :
    (sessionAt clock id user texts).untimed = sessionAt (fun _ => .epoch) "" user texts := by
  rw [sessionAt, untimed_eq, ((guarded_startAt clock id user).executeAll guards_untimed _).2,
    ← untimed_eq, untimed_startAt, List.map_map, sessionAt]
  rfl

/-- The shells are the same but for times and the identifiers of processes. -/
structure SameButTimes (shell other : Shell) : Prop where
  root : shell.filesystem.root.untimed = other.filesystem.root.untimed
  working : shell.filesystem.working = other.filesystem.working
  user : shell.filesystem.user = other.filesystem.user
  history : shell.history = other.history
  processes : shell.processes.processes.map ProcessEntry.untimed =
    other.processes.processes.map ProcessEntry.untimed
  nextPid : shell.processes.nextPid = other.processes.nextPid

theorem sameButTimes_of_untimed (h : shell.untimed = other.untimed) :
    SameButTimes shell other where
  root := congrArg (·.filesystem.root) h
  working := congrArg (·.filesystem.working) h
  user := congrArg (·.filesystem.user) h
  history := congrArg (·.history) h
  processes := congrArg (·.processes.processes) h
  nextPid := congrArg (·.processes.nextPid) h

/-- Two sessions of a user that go through the same lines by different clocks end the same but for
times, and each line that does not ask for times shows the same in both. -/
structure Indistinct (clock other : Nat → Stamp) (id otherId user : String) (texts : List String) :
    Prop where
  same : SameButTimes (sessionAt clock id user texts) (sessionAt other otherId user texts)
  outcome : ∀ earlier text later, texts = earlier ++ text :: later → ¬ShowsTimes (lineOf text) →
    ((sessionAt clock id user earlier).execute (clock (startReadings + earlier.length)) text).2 =
      ((sessionAt other otherId user earlier).execute
        (other (startReadings + earlier.length)) text).2

/-- The clock shows nowhere but in times, and in lines that ask for them. -/
theorem indistinct_sessions (clock other : Nat → Stamp) (id otherId user : String)
    (texts : List String) : Indistinct clock other id otherId user texts := by
  constructor
  · refine sameButTimes_of_untimed ?_
    rw [untimed_sessionAt, untimed_sessionAt]
  · intro earlier text later _ htimes
    rw [← (guarded_sessionAt clock id user earlier).outcome_untimed htimes,
      ← (guarded_sessionAt other otherId user earlier).outcome_untimed htimes, untimed_sessionAt,
      untimed_sessionAt]

/-- A long listing does show the clock. -/
example :
    ((sessionAt (fun _ => .ofNanoseconds 0) "1" "guest" []).execute (.ofNanoseconds 0) "ls -l").2 ≠
      ((sessionAt (fun n => .ofNanoseconds (n * 60000000000)) "2" "guest" []).execute
        (.ofNanoseconds 0) "ls -l").2 := by
  decide +kernel

end PocketShell.Shell
