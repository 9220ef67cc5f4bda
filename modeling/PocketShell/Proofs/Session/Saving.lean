import PocketShell.Proofs.Repl.Trace
import PocketShell.Proofs.Session.Restart

/-!
# When a session is saved

A run of the program writes at its very end or not at all. Whatever becomes of input and output,
what is saved is the tree that the executed lines have led to; and whatever is found in the store,
the shell starts with a tree that was saved as a whole or with the initial one.
-/

namespace PocketShell.Session

open Time (Stamp)

variable {environment : Environment} {disk : Disk} {console : Repl.Console} {session : Session}

/-! ## The shell at the start -/

/-- The shell of a user without a saved session. -/
def newShell (session : Session) (environment : Environment) : Shell :=
  .startAt environment.clock environment.processId session.user

/-- What reading the file of a user's session comes to, if no tree can be restored from it. -/
inductive Unusable (user : String) : Except Disk.Fault (List UInt8) → Prop
  | missing : Unusable user (.error .notFound)
  | unreadable {fault : Disk.Fault} : fault ≠ .notFound → Unusable user (.error fault)
  | corrupt {octets : List UInt8} : Store.Record.read? octets = none → Unusable user (.ok octets)
  | foreign {octets : List UInt8} {record : Store.Record} :
    Store.Record.read? octets = some record → record.user ≠ user → Unusable user (.ok octets)
  | malformed {octets : List UInt8} {record : Store.Record} {reason : Snapshot.Fault} :
    Store.Record.read? octets = some record → Snapshot.toTree record.snapshot = .error reason →
      Unusable user (.ok octets)

/-- A snapshot that denotes no tree leaves the new shell as it is. -/
theorem begin_of_not_tree {clock : Nat → Stamp} {id snapshot : String} {reason : Snapshot.Fault}
    (h : Snapshot.toTree snapshot = .error reason) :
    (session.begin clock id (.ok (some snapshot))).1 = .startAt clock id session.user := by
  simp only [begin, Shell.restore, Change.run_within, Filesystem.run_restore, h]
  rfl

theorem opening_of_unusable (huser : Path.isName session.user)
    (h : Unusable session.user (disk.read (session.store.file session.user))) :
    (session.opening environment disk).1 = session.newShell environment := by
  rw [opening, Store.load_of_read huser rfl]
  generalize disk.read (session.store.file session.user) = content at h
  cases h with
  | missing => rfl
  | @unreadable fault _ => cases fault <;> rfl
  | corrupt hread =>
    simp only [Store.snapshotOf, hread]
    rfl
  | foreign hread hother =>
    simp only [Store.snapshotOf, hread, if_neg hother]
    rfl
  | @malformed octets record reason hread htree =>
    simp only [Store.snapshotOf, hread]
    split
    · exact begin_of_not_tree htree
    · rfl

theorem opening_of_tree {octets : List UInt8} {record : Store.Record} {root : Node}
    (huser : Path.isName session.user)
    (hstored : disk.read (session.store.file session.user) = .ok octets)
    (hread : Store.Record.read? octets = some record) (hown : record.user = session.user)
    (htree : Snapshot.toTree record.snapshot = .ok root) :
    (session.opening environment disk).1 =
      (session.newShell environment).withFilesystem ⟨root, [], session.user⟩ := by
  rw [opening, Store.load_of_read huser hstored]
  simp only [Store.snapshotOf, hread, if_pos hown, begin_of_tree htree]
  rfl

/-! ## The course of a run -/

/-- The shell at the end of the session: the lines that are executed have led to it from the one at
the start. -/
def closingShell (session : Session) (environment : Environment) (disk : Disk)
    (console : Repl.Console) : Shell :=
  (session.opening environment disk).1.executeAll
    (Repl.executed (console.output.after 1) (session.opening environment disk).1
      (environment.entered console))

/-- What would become of the lines of a session if all texts could be written. -/
def unfailing (session : Session) (environment : Environment) (disk : Disk)
    (console : Repl.Console) : Repl.Transcript :=
  Repl.run environment.terminal .reliable (session.opening environment disk).1
    (environment.entered console)

/-- The result of a session that is saved, or need not be. -/
def terminalResult (session : Session) (environment : Environment) (disk : Disk)
    (console : Repl.Console) : Except Fault Unit :=
  if (session.transcript environment disk console).ending = .failure then .error .terminal
  else .ok ()

/-- The record that is saved at the end of a session. -/
def closingRecord (session : Session) (environment : Environment) (console : Repl.Console)
    (snapshot : String) : Store.Record :=
  ⟨session.user, (environment.closing (environment.entered console)).seconds, snapshot⟩

/-- What a run of the session comes to. -/
structure Course (session : Session) (environment : Environment) (disk : Disk)
    (console : Repl.Console) (run : Run) : Prop where
  /-- Without a saved tree the session starts with a new shell. -/
  fresh : Unusable session.user (disk.read (session.store.file session.user)) →
    (session.opening environment disk).1 = session.newShell environment
  /-- A saved tree takes the place of the whole tree of a new shell. -/
  resumed : ∀ octets record root, disk.read (session.store.file session.user) = .ok octets →
    Store.Record.read? octets = some record → record.user = session.user →
      Snapshot.toTree record.snapshot = .ok root →
        (session.opening environment disk).1 =
          (session.newShell environment).withFilesystem ⟨root, [], session.user⟩
  ended : (session.transcript environment disk console).shell =
    session.closingShell environment disk console
  /-- The lines are read and executed as if all texts could be written, up to the first
  that cannot. -/
  executed : ∃ read,
    Repl.Trace environment.terminal (session.opening environment disk).1
      (environment.entered console) read (session.unfailing environment disk console) ∧
    Repl.Withstands environment.terminal (session.opening environment disk).1
      (environment.entered console) read (session.unfailing environment disk console)
  unsaved : session.autosave = false →
    run.disk = disk ∧ run.result = session.terminalResult environment disk console
  unserialized : session.autosave = true → ∀ cause,
    (session.closingShell environment disk console).filesystem.serialize = .error cause →
      run.disk = disk ∧ run.result = .error (.serialize cause)
  /-- All that is done to the disk is one save. -/
  saved : session.autosave = true → ∀ snapshot,
    (session.closingShell environment disk console).filesystem.serialize = .ok snapshot →
      run.disk = (session.store.save disk (session.closingRecord environment console snapshot)).1 ∧
      run.result =
        match (session.store.save disk (session.closingRecord environment console snapshot)).2 with
        | .error fault => .error (.save fault)
        | .ok () => session.terminalResult environment disk console
  /-- A save that succeeds can be loaded. Snapshots are ones that a machine of 64 bits can hold. -/
  loaded : session.autosave = true → ∀ snapshot, snapshot.utf8ByteSize < Snapshot.addressable →
    (session.closingShell environment disk console).filesystem.serialize = .ok snapshot →
      (session.store.save disk (session.closingRecord environment console snapshot)).2 = .ok () →
        session.store.load run.disk session.user = .ok (some snapshot)

theorem result_ok (ending : Repl.Ending) :
    result ending (.ok ()) = if ending = .failure then .error .terminal else .ok () := by
  cases ending <;> rfl

theorem finish_of_not_autosave {now : Stamp} {shell : Shell} (h : session.autosave = false) :
    session.finish disk now shell = (disk, .ok ()) := by
  simp [finish, toSave, h]

theorem course_run (huser : Path.isName session.user)
    (hsession : environment.session disk = .ok session) :
    Course session environment disk console (run environment disk console) := by
  have hshell : (session.transcript environment disk console).shell =
      session.closingShell environment disk console := Repl.shell_run ..
  rw [run_eq hsession, hshell]
  constructor
  · exact opening_of_unusable huser
  · intro octets record root hstored hread hown htree
    exact opening_of_tree huser hstored hread hown htree
  · exact hshell
  · exact Repl.exists_trace ..
  · intro hautosave
    rw [finish_of_not_autosave hautosave, result_ok]
    exact ⟨rfl, rfl⟩
  · intro hautosave cause hserialize
    rw [finish_of_not_serialize hautosave hserialize]
    exact ⟨rfl, rfl⟩
  · intro hautosave snapshot hserialize
    rw [finish_of_serialize hautosave hserialize, closingRecord]
    refine ⟨rfl, ?_⟩
    cases (session.store.save disk _).2 with
    | ok => exact result_ok _
    | error fault => rfl
  · intro hautosave snapshot hfits hserialize hsave
    rw [finish_of_serialize hautosave hserialize]
    have hload := Store.load_of_save (Prod.snd_eq_iff.1 hsave) hfits
    exact hload

/-- The law of a run, for every disk and every console, whatever can be read from it and written to
it. A run that cannot be prepared does nothing at all, and every other takes its course. -/
theorem run_law (environment : Environment) (disk : Disk) (console : Repl.Console) :
    (∀ fault, Config.read disk environment.root = .error fault →
      run environment disk console = ⟨disk, "", .error (.config fault)⟩) ∧
    ∀ config session, Config.read disk environment.root = .ok config →
      session = ofConfig environment.root environment.user? config →
        (¬Path.isName session.user →
          run environment disk console = ⟨disk, "", .error (.invalidUser session.user)⟩) ∧
        (Path.isName session.user →
          Course session environment disk console (run environment disk console)) := by
  refine ⟨fun fault hconfig => ?_, fun config session hconfig hsession => ⟨fun huser => ?_,
    fun huser => ?_⟩⟩
  · rw [run, Environment.session, hconfig]
    rfl
  · subst hsession
    rw [run, session_eq rfl hconfig, if_neg huser]
  · subst hsession
    exact course_run huser (by rw [session_eq rfl hconfig, if_pos huser])

/-- Consoles where the line `mkdir a` is entered and then the terminal fails: the next line is not
UTF-8, it cannot be read, or the reply to `mkdir a` cannot be written. -/
def failingConsoles : List Repl.Console :=
  [⟨makeA ++ [255], false, .reliable⟩, ⟨makeA ++ [112], true, .reliable⟩,
    ⟨makeA ++ makeA, false, ⟨fun i => if i = 2 then some 0 else none⟩⟩]

/-- They all fail, with that line executed. -/
theorem failing_failingConsoles : ∀ console ∈ failingConsoles,
    (plainSession.transcript (plainRun 0) Disk.empty console).ending = .failure ∧
      Repl.executed (console.output.after 1) (plainSession.opening (plainRun 0) Disk.empty).1
          ((plainRun 0).entered console) =
        Repl.executed .reliable (plainSession.opening (plainRun 0) Disk.empty).1
          ((plainRun 0).entered makeA) := by
  decide +kernel

theorem closingShell_failingConsoles {console : Repl.Console} (h : console ∈ failingConsoles) :
    plainSession.closingShell (plainRun 0) Disk.empty console = shellWithA := by
  rw [closingShell, (failing_failingConsoles console h).2, shellWithA, transcript, Repl.shell_run]
  rfl

/-- The directory is saved, in whatever way the terminal fails after it is made. -/
theorem run_law_failingConsoles : ∀ console ∈ failingConsoles,
    (run (plainRun 0) Disk.empty console).result = .error .terminal ∧
      plainSession.store.load (run (plainRun 0) Disk.empty console).disk "user" =
        .ok (some snapshotWithA) := by
  intro console hmem
  obtain ⟨hserialize, hfits⟩ := serialize_shellWithA
  rw [← closingShell_failingConsoles hmem] at hserialize
  have hsave : (plainSession.store.save Disk.empty
      (plainSession.closingRecord (plainRun 0) console snapshotWithA)).2 = .ok () := by
    rw [show plainSession.closingRecord (plainRun 0) console snapshotWithA =
      ⟨"user", 0, snapshotWithA⟩ from rfl]
    decide +kernel
  have hcourse : Course plainSession (plainRun 0) Disk.empty console
      (run (plainRun 0) Disk.empty console) :=
    ((run_law (plainRun 0) Disk.empty console).2 Config.default plainSession
      (by decide +kernel) rfl).2 (by decide)
  refine ⟨?_, hcourse.loaded rfl snapshotWithA hfits hserialize hsave⟩
  rw [(hcourse.saved rfl snapshotWithA hserialize).2, hsave]
  exact if_pos (failing_failingConsoles console hmem).1

end PocketShell.Session
