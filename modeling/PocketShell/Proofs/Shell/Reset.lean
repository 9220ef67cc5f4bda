import PocketShell.Proofs.Shell.Clock

/-!
# A shell that is reset

Resetting leaves nothing of what a shell has been through but its protected processes and the next
pid. These can be seen in the process table only; as none of the processes can be killed, whatever
is entered afterwards leaves them alone, and every line that neither lists nor kills processes and
shows no times shows what it shows in a new shell.
-/

namespace PocketShell.Shell

open Command.Builtin (ShowsTimes)
open Time (Stamp)

variable {shell other : Shell} {text : String}

/-! ## Shells without their processes -/

/-- The shell without its times and without processes. -/
def unmanned (shell : Shell) : Shell :=
  shell.viewed fun _ => ⟨[], 1⟩

theorem guards_none : Guards fun _ => ⟨[], 1⟩ := by
  intro table _ process hprocess
  exact absurd hprocess List.not_mem_nil

theorem Guarded.outcome_unmanned (h : shell.Guarded) (hkill : (lineOf text).command ≠ "kill")
    (htimes : ¬ShowsTimes (lineOf text)) (now : Stamp) :
    (shell.unmanned.execute .epoch text).2 = (shell.execute now text).2 := by
  refine outcome_viewed ?_
  rw [h.standard]
  exact Registry.mirrors_dispatch hkill htimes _ now _ _

/-- Shells that differ in times and processes only show the same after the same lines. -/
theorem Guarded.outcome_eq (h : shell.Guarded) (hother : other.Guarded)
    (hsame : shell.unmanned = other.unmanned) {lines others : List (Stamp × String)}
    (hlines : lines.map Prod.snd = others.map Prod.snd)
    (hkill : (lineOf text).command ≠ "kill") (htimes : ¬ShowsTimes (lineOf text))
    (now later : Stamp) :
    ((shell.executeAll lines).execute now text).2 =
      ((other.executeAll others).execute later text).2 := by
  obtain ⟨hguarded, hviewed⟩ := h.executeAll guards_none lines
  obtain ⟨hguarded', hviewed'⟩ := hother.executeAll guards_none others
  have hepoch : ∀ lines : List (Stamp × String), lines.map (fun line => (Stamp.epoch, line.2)) =
      (lines.map Prod.snd).map fun line => (.epoch, line) := by simp
  have hunmanned : (shell.executeAll lines).unmanned = (other.executeAll others).unmanned := by
    calc (shell.executeAll lines).unmanned
      _ = shell.unmanned.executeAll ((lines.map Prod.snd).map fun line => (.epoch, line)) := by
        rw [← hepoch]
        exact hviewed
      _ = other.unmanned.executeAll ((others.map Prod.snd).map fun line => (.epoch, line)) := by
        rw [hsame, hlines]
      _ = (other.executeAll others).unmanned := by
        rw [← hepoch]
        exact hviewed'.symm
  rw [← hguarded.outcome_unmanned hkill htimes, hunmanned,
    hguarded'.outcome_unmanned hkill htimes]

/-! ## Resetting -/

theorem Standard.guarded_resetAt (h : shell.Standard) (clock : Nat → Stamp) :
    (shell.resetAt clock).Guarded := by
  refine ⟨h, fun process hprocess => ?_⟩
  exact (List.mem_filter.1 hprocess).2

/-- But for its processes, a shell that is reset is a new one. -/
theorem Standard.unmanned_resetAt (h : shell.Standard) (reading clock : Nat → Stamp)
    (id : String) :
    (shell.resetAt reading).unmanned = (startAt clock id shell.filesystem.user).unmanned := by
  have hfilesystem : (shell.filesystem.resetAt reading).untimed =
      (Filesystem.startAt clock shell.filesystem.user).untimed := by
    rw [Filesystem.resetAt, Filesystem.untimed_startAt, Filesystem.untimed_startAt]
  unfold unmanned viewed Shell.resetAt startAt Machine.untimed
  dsimp only
  rw [hfilesystem, show shell.registry = Command.Builtin.registry from h]

/-- What is left of a shell of a user when it is reset, and how it goes on. -/
structure Renewed (user : String) (shell renewed : Shell) : Prop where
  /-- The tree is that of a new shell but for times. -/
  root : ∀ clock id, renewed.filesystem.root.untimed =
    (startAt clock id user).filesystem.root.untimed
  working : renewed.filesystem.working = []
  currentPath : renewed.filesystem.currentPath = "/"
  history : renewed.history = .empty
  processes : renewed.processes.processes =
    shell.processes.processes.filter ProcessEntry.isProtected
  nextPid : renewed.processes.nextPid = shell.processes.nextPid
  /-- A line that is neither about processes nor shows times shows what it shows in a new shell,
  whatever was entered in both before it. -/
  outcome : ∀ clock id lines others, lines.map Prod.snd = others.map Prod.snd →
    ∀ now later text, (lineOf text).command ≠ "kill" → ¬ShowsTimes (lineOf text) →
      ((renewed.executeAll lines).execute now text).2 =
        (((startAt clock id user).executeAll others).execute later text).2

/-- A shell that is reset is as good as new, whatever it has been through. -/
theorem renewed_resetAt (clock reading : Nat → Stamp) (id user : String) (events : List Event) :
    Renewed user ((startAt clock id user).run events)
      (((startAt clock id user).run events).resetAt reading) := by
  have hstandard := standard_run_startAt clock id user events
  have huser : ((startAt clock id user).run events).filesystem.user = user :=
    Standard.user_run (show (startAt clock id user).Standard from rfl) events
  have hsame := hstandard.unmanned_resetAt reading
  rw [huser] at hsame
  constructor
  · intro clock id
    exact congrArg (·.filesystem.root) (hsame clock id)
  · rfl
  · rfl
  · rfl
  · rfl
  · rfl
  · intro clock id lines others hlines now later text hkill htimes
    exact (hstandard.guarded_resetAt reading).outcome_eq (guarded_startAt clock id user)
      (hsame clock id) hlines hkill htimes now later

end PocketShell.Shell
