import PocketShell.Proofs.Shell.Lines

/-!
# Runs of a shell

All that can happen to a shell from outside: lines are executed, the tree is restored from a
snapshot, the shell is reset, its processes are worked on and its history is walked, in any order
and whether what is tried succeeds or not.
-/

namespace PocketShell.Shell

open Time (Stamp)

/-- Something that happens to a shell, with all that it is given. -/
inductive Event where
  | execute (now : Stamp) (line : String)
  | restore (snapshot : String)
  | reset (clock : Nat → Stamp)
  | process (operation : ProcessTable.Operation)
  | record (line : String)
  | navigate (direction : History.Direction)

/-- The shell after an event. -/
def after (shell : Shell) : Event → Shell
  | .execute now line => (shell.execute now line).1
  | .restore snapshot => (restore snapshot).after shell
  | .reset clock => shell.resetAt clock
  | .process operation => shell.withProcesses (shell.processes.after operation)
  | .record line => { shell with history := shell.history.record line }
  | .navigate direction => { shell with history := (shell.history.navigate direction).1 }

/-- The shell after some events, the first of them first. -/
def run (shell : Shell) (events : List Event) : Shell :=
  events.foldl after shell

variable {shell : Shell}

theorem Standard.after (h : shell.Standard) (event : Event) : (shell.after event).Standard := by
  cases event with
  | execute now line => exact h.execute now line
  | restore snapshot =>
    rw [Shell.after, Shell.restore, Change.after_within]
    exact h
  | reset | process | record | navigate => exact h

theorem Standard.run (h : shell.Standard) (events : List Event) : (shell.run events).Standard := by
  induction events generalizing shell with
  | nil => exact h
  | cons event rest ih => exact ih (h.after event)

/-- No event adds, replaces or takes away a command. -/
theorem standard_run_startAt (clock : Nat → Stamp) (id user : String) (events : List Event) :
    ((startAt clock id user).run events).Standard :=
  Standard.run (show (startAt clock id user).Standard from rfl) events

/-- No event hands the shell to another user. -/
theorem Standard.user_after (h : shell.Standard) (event : Event) :
    (shell.after event).filesystem.user = shell.filesystem.user := by
  cases event with
  | execute now line =>
    rw [Shell.after, filesystem_execute h, Filesystem.user_run]
  | restore snapshot =>
    rw [Shell.after, Shell.restore, Change.after_within]
    exact Filesystem.user_after shell.filesystem (.restore snapshot)
  | reset | process | record | navigate => rfl

theorem Standard.user_run (h : shell.Standard) (events : List Event) :
    (shell.run events).filesystem.user = shell.filesystem.user := by
  induction events generalizing shell with
  | nil => rfl
  | cons event rest ih => exact (ih (h.after event)).trans (h.user_after event)

/-- Every event keeps the tree sound. -/
theorem Standard.sound_after (h : shell.Standard) (hsound : shell.filesystem.Sound fun _ => True)
    (event : Event) : (shell.after event).filesystem.Sound fun _ => True := by
  cases event with
  | execute now line =>
    rw [Shell.after, filesystem_execute h]
    exact hsound.run_untimed _
  | restore snapshot =>
    rw [Shell.after, Shell.restore, Change.after_within]
    exact hsound.run_untimed [.restore snapshot]
  | reset clock => exact hsound.run_untimed [.reset clock]
  | process | record | navigate => exact hsound

theorem Standard.sound_run (h : shell.Standard) (hsound : shell.filesystem.Sound fun _ => True)
    (events : List Event) : (shell.run events).filesystem.Sound fun _ => True := by
  induction events generalizing shell with
  | nil => exact hsound
  | cons event rest ih => exact ih (h.after event) (h.sound_after hsound event)

/-- The tree of every shell whose user has the name of an entry is sound. -/
theorem sound_run_startAt {user : String} (huser : Path.isName user) (clock : Nat → Stamp)
    (id : String) (events : List Event) :
    ((startAt clock id user).run events).filesystem.Sound fun _ => True :=
  (show (startAt clock id user).Standard from rfl).sound_run
    (Filesystem.sound_startAt (fun _ => trivial) huser) events

end PocketShell.Shell
