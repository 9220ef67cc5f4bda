import PocketShell.Proofs.Filesystem.RoundTrip
import PocketShell.Proofs.Shell.Lines
import PocketShell.Proofs.Store.Crash
import PocketShell.Session

/-!
# Sessions one after another

The program is run again and again over one root directory, by several users in any order. Each run
restores the tree that the last run of its user saved, so that to each user it is as if one shell
had executed the lines of all runs.
-/

namespace PocketShell

open Time (Stamp)

/-! ## Visits -/

/-- What a run of the program is to its shell: whose it is, how a new shell is made in it, the
notice that is shown if the last session cannot be restored, and the lines that are executed. -/
structure Visit where
  user : String
  clock : Nat → Stamp
  processId : String
  notice : Option String
  executed : List (Stamp × String)

namespace Shell

/-- The shell with the root as its working directory. -/
def atRoot (shell : Shell) : Shell :=
  shell.withFilesystem { shell.filesystem with working := [] }

/-- The shell after one more visit, for which it goes back to the root. -/
def resume (shell : Shell) (visit : Visit) : Shell :=
  shell.atRoot.executeAll visit.executed

variable {shell : Shell}

theorem filesystem_resume (h : shell.Standard) (visit : Visit) :
    (shell.resume visit).Standard ∧
      (shell.resume visit).filesystem = shell.atRoot.filesystem.executeAll visit.executed := by
  have hroot : shell.atRoot.Standard := h
  exact filesystem_executeAll hroot visit.executed

theorem user_resume (h : shell.Standard) (visit : Visit) :
    (shell.resume visit).filesystem.user = shell.filesystem.user := by
  rw [(filesystem_resume h visit).2, Filesystem.user_executeAll]
  rfl

theorem sound_resume (h : shell.Standard) (hsound : shell.filesystem.Sound fun _ => True)
    (visit : Visit) : (shell.resume visit).filesystem.Sound fun _ => True := by
  have hroot : shell.atRoot.filesystem.Sound fun _ => True :=
    ⟨hsound.user_isName, hsound.root_name, hsound.root_isDirectory, hsound.tree,
      Node.hasDirectory_nil _⟩
  rw [(filesystem_resume h visit).2]
  exact hroot.executeAll visit.executed

end Shell

namespace Visit

/-- The shell that a visit would start with if it were the first. -/
def newShell (visit : Visit) : Shell :=
  .startAt visit.clock visit.processId visit.user

/-- The one shell that executes the lines of all visits, if there are any. It is made in the first
of them. -/
def soleShell? (visits : List Visit) : Option Shell :=
  visits.head?.map fun first => visits.foldl Shell.resume first.newShell

theorem soleShell?_append (visits : List Visit) (visit : Visit) :
    soleShell? (visits ++ [visit]) =
      some (((soleShell? visits).getD visit.newShell).resume visit) := by
  cases visits with
  | nil => rfl
  | cons first later => simp [soleShell?]

/-- One more visit goes on with the one shell of its user, and with that of no other. -/
theorem soleShell?_filter_append (visits : List Visit) (visit : Visit) (user : String) :
    soleShell? ((visits ++ [visit]).filter fun visit => visit.user = user) =
      if visit.user = user then
        some (((soleShell? (visits.filter fun visit => visit.user = user)).getD
          visit.newShell).resume visit)
      else soleShell? (visits.filter fun visit => visit.user = user) := by
  rw [List.filter_append, List.filter_singleton]
  by_cases huser : visit.user = user
  · rw [decide_eq_true huser, cond_true, soleShell?_append, if_pos huser]
  · rw [decide_eq_false huser, cond_false, List.append_nil, if_neg huser]

end Visit

namespace Session

/-- The session that the settings ask for, whether the name of the user is valid or not. -/
def ofConfig (root : String) (user? : Option String) (config : Config) : Session :=
  ⟨user?.getD config.user, config.autosave, ⟨Disk.join root config.storage⟩⟩

variable {root : String} {config : Config} {disk : Disk} {environment : Environment}
  {console : Repl.Console} {session : Session}

/-- What becomes of the lines of a session. -/
def transcript (session : Session) (environment : Environment) (disk : Disk)
    (console : Repl.Console) : Repl.Transcript :=
  Repl.run environment.terminal (console.output.after 1) (session.opening environment disk).1
    (environment.entered console)

/-- What a session is to its shell. -/
def visit (session : Session) (environment : Environment) (disk : Disk) (console : Repl.Console) :
    Visit :=
  ⟨session.user, environment.clock, environment.processId,
    (session.opening environment disk).2,
    Repl.executed (console.output.after 1) (session.opening environment disk).1
      (environment.entered console)⟩

/-- A run with the settings of `config` that ends well, up to a fault of the terminal, and whose
snapshot a machine of 64 bits can hold. -/
structure Undisturbed (root : String) (config : Config) (disk : Disk) (environment : Environment)
    (console : Repl.Console) : Prop where
  root_eq : environment.root = root
  config_eq : Config.read disk root = .ok config
  result : (run environment disk console).result = .ok () ∨
    (run environment disk console).result = .error .terminal
  fits : ∀ snapshot,
    ((ofConfig root environment.user? config).transcript environment disk
      console).shell.filesystem.serialize = .ok snapshot →
        snapshot.utf8ByteSize < Snapshot.addressable

/-- Runs of the program one after another over one root directory: what each is to its shell, and
what becomes of the disk. -/
inductive Visits (root : String) (config : Config) (start : Disk) : List Visit → Disk → Prop
  | start : Visits root config start [] start
  | run {visits : List Visit} {disk : Disk} {environment : Environment} {console : Repl.Console} :
      Visits root config start visits disk → Undisturbed root config disk environment console →
        Visits root config start
          (visits ++ [(ofConfig root environment.user? config).visit environment disk console])
          (Session.run environment disk console).disk

/-! ## One run -/

theorem session_eq (hroot : environment.root = root)
    (hconfig : Config.read disk root = .ok config) :
    environment.session disk =
      if Path.isName (ofConfig root environment.user? config).user then
        .ok (ofConfig root environment.user? config)
      else .error (.invalidUser (ofConfig root environment.user? config).user) := by
  rw [Environment.session, hroot, hconfig]
  rfl

theorem run_eq (hsession : environment.session disk = .ok session) :
    run environment disk console =
      { disk := (session.finish disk (environment.closing (environment.entered console))
          (session.transcript environment disk console).shell).1
        output := console.output.shown 0
            (openingText environment.terminal (session.opening environment disk).2) ++
          (session.transcript environment disk console).output
        result := result (session.transcript environment disk console).ending
          (session.finish disk (environment.closing (environment.entered console))
            (session.transcript environment disk console).shell).2 } := by
  rw [run, hsession]
  rfl

theorem finish_of_serialize {now : Stamp} {shell : Shell} {snapshot : String}
    (hautosave : session.autosave) (h : shell.filesystem.serialize = .ok snapshot) :
    session.finish disk now shell =
      ((session.store.save disk ⟨session.user, now.seconds, snapshot⟩).1,
        (session.store.save disk ⟨session.user, now.seconds, snapshot⟩).2.mapError .save) := by
  rw [finish, toSave, if_pos hautosave, h]

theorem finish_of_not_serialize {now : Stamp} {shell : Shell} {cause : Filesystem.Fault}
    (hautosave : session.autosave) (h : shell.filesystem.serialize = .error cause) :
    session.finish disk now shell = (disk, .error (.serialize cause)) := by
  rw [finish, toSave, if_pos hautosave, h]

/-- A session that does not fail at its end, but for the terminal, has saved the tree. -/
theorem saved_of_finish {now : Stamp} {shell : Shell} (hautosave : session.autosave)
    (h : (session.finish disk now shell).2 = .ok () ∨
      (session.finish disk now shell).2 = .error .terminal) :
    ∃ record : Store.Record, record.user = session.user ∧
      shell.filesystem.serialize = .ok record.snapshot ∧
      session.store.save disk record = ((session.finish disk now shell).1, .ok ()) := by
  cases hserialize : shell.filesystem.serialize with
  | error cause =>
    rw [finish_of_not_serialize hautosave hserialize] at h
    simp at h
  | ok snapshot =>
    rw [finish_of_serialize hautosave hserialize] at h ⊢
    refine ⟨⟨session.user, now.seconds, snapshot⟩, rfl, rfl, Prod.snd_eq_iff.1 ?_⟩
    cases hsave : (session.store.save disk ⟨session.user, now.seconds, snapshot⟩).2 with
    | ok => rfl
    | error fault =>
      rw [hsave] at h
      simp [Except.mapError] at h

/-- A run that ends well, up to a fault of the terminal, has finished its session. -/
theorem finished_of_result {ending : Repl.Ending} {finished : Except Fault Unit}
    (h : result ending finished = .ok () ∨ result ending finished = .error .terminal) :
    finished = .ok () ∨ finished = .error .terminal := by
  cases finished with
  | ok => exact .inl rfl
  | error fault =>
    rcases h with h | h
    · cases h
    · exact .inr h

namespace Undisturbed

theorem isName_user (h : Undisturbed root config disk environment console) :
    Path.isName (ofConfig root environment.user? config).user := by
  by_contra hname
  have hresult := h.result
  rw [run, session_eq h.root_eq h.config_eq, if_neg hname] at hresult
  simp at hresult

theorem session_eq_ok (h : Undisturbed root config disk environment console) :
    environment.session disk = .ok (ofConfig root environment.user? config) := by
  rw [session_eq h.root_eq h.config_eq, if_pos h.isName_user]

/-- A run whose tree can be saved ends well, up to a fault of the terminal, with the tree saved. -/
theorem of_save {snapshot : String} (hroot : environment.root = root)
    (hconfig : Config.read disk root = .ok config) (hautosave : config.autosave)
    (session : Session) (hsession : ofConfig root environment.user? config = session)
    (hname : Path.isName session.user)
    (hserialize : (session.transcript environment disk console).shell.filesystem.serialize =
      .ok snapshot)
    (hfits : snapshot.utf8ByteSize < Snapshot.addressable)
    (hsave : (session.store.save disk ⟨session.user,
      (environment.closing (environment.entered console)).seconds, snapshot⟩).2 = .ok ()) :
    Undisturbed root config disk environment console ∧
      (Session.run environment disk console).disk = (session.store.save disk ⟨session.user,
        (environment.closing (environment.entered console)).seconds, snapshot⟩).1 ∧
      (Session.run environment disk console).result =
        Session.result (session.transcript environment disk console).ending (.ok ()) := by
  subst hsession
  have hok : environment.session disk = .ok (ofConfig root environment.user? config) := by
    rw [session_eq hroot hconfig, if_pos hname]
  have hresult : (Session.run environment disk console).result = Session.result
      ((ofConfig root environment.user? config).transcript environment disk console).ending
      (.ok ()) := by
    rw [run_eq hok, finish_of_serialize hautosave hserialize, hsave]
    rfl
  refine ⟨⟨hroot, hconfig, ?_, fun other hother => ?_⟩, ?_, hresult⟩
  · rw [hresult]
    cases (transcript _ environment disk console).ending with
    | exit => exact .inl rfl
    | endOfInput => exact .inl rfl
    | failure => exact .inr rfl
  · rw [hserialize] at hother
    cases hother
    exact hfits
  · rw [run_eq hok, finish_of_serialize hautosave hserialize]

/-- At the end of the run the tree of the shell is saved. -/
theorem saved (h : Undisturbed root config disk environment console) (hautosave : config.autosave) :
    ∃ record : Store.Record, record.user = (ofConfig root environment.user? config).user ∧
      record.snapshot.utf8ByteSize < Snapshot.addressable ∧
      ((ofConfig root environment.user? config).transcript environment disk
        console).shell.filesystem.serialize = .ok record.snapshot ∧
      Store.Effect ⟨Disk.join root config.storage⟩ record disk
        (Session.run environment disk console).disk true := by
  have hresult := h.result
  rw [run_eq h.session_eq_ok] at hresult ⊢
  obtain ⟨record, hrecord, hserialize, hsave⟩ :=
    saved_of_finish hautosave (finished_of_result hresult)
  have heffect := Store.effect_save (hrecord ▸ h.isName_user) hsave
  rw [decide_eq_true rfl] at heffect
  exact ⟨record, hrecord, h.fits _ hserialize, hserialize, heffect⟩

end Undisturbed

/-! ## What is left of the runs -/

/-- The tree of the shell is what is stored of the user. -/
structure Kept (store : Store) (user : String) (disk : Disk) (shell : Shell) : Prop where
  standard : shell.Standard
  sound : shell.filesystem.Sound fun _ => True
  user_eq : shell.filesystem.user = user
  made : store.Made disk
  stored : ∃ record : Store.Record, record.user = user ∧ record.Storable ∧
    shell.filesystem.serialize = .ok record.snapshot ∧ store.stored disk user = .ok record.write

/-- What is stored of a user, given the one shell of the user's visits. -/
def Left (store : Store) (user : String) (disk : Disk) : Option Shell → Prop
  | none => ∀ octets, store.stored disk user ≠ .ok octets
  | some shell => Kept store user disk shell

variable {store : Store} {user : String} {shell : Shell} {shell? : Option Shell}

theorem ofTree?_of_serialize {fs : Filesystem} {text : String} (h : fs.serialize = .ok text) :
    Snapshot.ofTree? fs.root = some text := by
  rw [Filesystem.serialize] at h
  cases htext : Snapshot.ofTree? fs.root with
  | none => rw [htext] at h; cases h
  | some written => rw [htext] at h; cases h; rfl

/-- What is kept is loaded, and it is the tree of the shell. -/
theorem Kept.load (h : Kept store user disk shell) (huser : Path.isName user) :
    ∃ snapshot, store.load disk user = .ok (some snapshot) ∧
      Snapshot.toTree snapshot = .ok shell.filesystem.root := by
  obtain ⟨record, hrecord, hstorable, hserialize, hstored⟩ := h.stored
  rw [h.made.stored_eq, ← List.append_nil record.write] at hstored
  refine ⟨record.snapshot, ?_, ?_⟩
  · rw [Store.load_of_written huser hstorable hstored, if_pos hrecord]
  · exact Snapshot.toTree_ofTree? h.sound.root_name h.sound.root_isDirectory h.sound.tree
      (ofTree?_of_serialize hserialize) hstorable.snapshot_lt

theorem begin_of_tree {clock : Nat → Stamp} {id snapshot : String} {root : Node}
    (h : Snapshot.toTree snapshot = .ok root) :
    session.begin clock id (.ok (some snapshot)) =
      ((Shell.startAt clock id session.user).withFilesystem ⟨root, [], session.user⟩, none) := by
  simp only [begin, Shell.restore, Change.run_within, Filesystem.run_restore, h]
  rfl

/-- A session starts without a notice, and with the tree of the one shell. -/
theorem opening_of_left (huser : Path.isName session.user)
    (hleft : Left session.store session.user disk shell?)
    (hstored : session.store.stored disk session.user = .error .notFound ∨
      ∃ octets, session.store.stored disk session.user = .ok octets)
    (environment : Environment) (console : Repl.Console) :
    (session.opening environment disk).2 = none ∧
      (session.opening environment disk).1.Standard ∧
      (session.opening environment disk).1.filesystem =
        (shell?.getD (session.visit environment disk console).newShell).atRoot.filesystem := by
  cases shell? with
  | none =>
    have hlost := Store.read_of_stored_notFound
      (hstored.resolve_right fun ⟨octets, hoctets⟩ => hleft octets hoctets)
    have hload : session.store.load disk session.user = .ok none := by
      rw [Store.load_of_read huser hlost]
      rfl
    rw [opening, hload]
    exact ⟨rfl, rfl, rfl⟩
  | some shell =>
    obtain ⟨snapshot, hload, htree⟩ := Kept.load hleft huser
    rw [opening, hload, begin_of_tree htree]
    refine ⟨rfl, rfl, ?_⟩
    rw [Option.getD_some, ← hleft.user_eq]
    rfl

/-- The one shell of a user so far, or else a new one. -/
theorem Left.getD (h : Left store user disk shell?) (huser : Path.isName user) {visit : Visit}
    (hvisit : visit.user = user) :
    (shell?.getD visit.newShell).Standard ∧
      (shell?.getD visit.newShell).filesystem.user = user ∧
      (shell?.getD visit.newShell).filesystem.Sound fun _ => True := by
  cases shell? with
  | none =>
    subst hvisit
    exact ⟨rfl, rfl, Filesystem.sound_startAt (fun _ => trivial) huser⟩
  | some shell => exact ⟨h.standard, h.user_eq, h.sound⟩

/-- The shell of a session ends with the tree that the one shell has after the visit. -/
theorem filesystem_transcript (hshell : shell.Standard)
    (hopening : (session.opening environment disk).1.Standard)
    (htree : (session.opening environment disk).1.filesystem = shell.atRoot.filesystem)
    (console : Repl.Console) :
    (session.transcript environment disk console).shell.filesystem =
      (shell.resume (session.visit environment disk console)).filesystem := by
  rw [transcript, Repl.shell_run, (Shell.filesystem_executeAll hopening _).2, htree,
    (Shell.filesystem_resume hshell _).2]
  rfl

/-- After a run of a user, the tree of the one shell is stored. -/
theorem Undisturbed.left_own (h : Undisturbed root config disk environment console)
    (hautosave : config.autosave) (session : Session)
    (hsession : ofConfig root environment.user? config = session)
    (hleft : Left session.store session.user disk shell?) :
    (session.opening environment disk).2 = none ∧
      Left session.store session.user (Session.run environment disk console).disk
        (some ((shell?.getD (session.visit environment disk console).newShell).resume
          (session.visit environment disk console))) := by
  obtain ⟨record, hrecord, hfits, hserialize, heffect⟩ := h.saved hautosave
  have huser := h.isName_user
  rw [hsession] at hrecord hserialize huser
  have hrecorduser : Path.isName record.user := hrecord ▸ huser
  have hstore : (⟨Disk.join root config.storage⟩ : Store) = session.store := by rw [← hsession]; rfl
  rw [hstore] at heffect
  have hstored := heffect.stored_cases hrecorduser
  obtain ⟨hmade, hbears, hwritten, -⟩ := heffect.stored_of_renamed hrecorduser
  rw [hrecord] at hstored hwritten
  obtain ⟨hquiet, hopening, htree⟩ := opening_of_left huser hleft hstored environment console
  generalize hvisit : session.visit environment disk console = visit at *
  obtain ⟨hstandard, hown, hsound⟩ := hleft.getD huser (show visit.user = _ by rw [← hvisit]; rfl)
  have hsame := filesystem_transcript hstandard hopening htree console
  rw [hvisit] at hsame
  refine ⟨hquiet, (Shell.filesystem_resume hstandard visit).1,
    Shell.sound_resume hstandard hsound visit, (Shell.user_resume hstandard visit).trans hown,
    hmade, record, hrecord, Store.storable_of_bears hbears hfits, ?_, hwritten⟩
  rw [Filesystem.serialize, ← hsame]
  exact hserialize

/-- A run of another user changes nothing of that. -/
theorem Undisturbed.left_other (h : Undisturbed root config disk environment console)
    (hautosave : config.autosave) (session : Session)
    (hsession : ofConfig root environment.user? config = session)
    (huser : Path.isName user) (hne : user ≠ session.user)
    (hleft : Left session.store user disk shell?) :
    Left session.store user (Session.run environment disk console).disk shell? := by
  obtain ⟨record, hrecord, -, -, heffect⟩ := h.saved hautosave
  have hname := h.isName_user
  rw [hsession] at hrecord hname
  have hstore : (⟨Disk.join root config.storage⟩ : Store) = session.store := by rw [← hsession]; rfl
  rw [hstore] at heffect
  obtain ⟨hmade, -, -, hothers⟩ := heffect.stored_of_renamed (hrecord ▸ hname)
  have hstored := hothers user huser (hrecord ▸ hne)
  cases shell? with
  | none =>
    intro octets
    rw [hstored]
    exact hleft octets
  | some shell =>
    have hkept : Kept session.store user disk shell := hleft
    refine ⟨hkept.standard, hkept.sound, hkept.user_eq, hmade, ?_⟩
    rw [hstored]
    exact hkept.stored

/-! ## All runs -/

variable {start : Disk} {visits : List Visit}

theorem Visits.isName_user (h : Visits root config start visits disk) :
    ∀ visit ∈ visits, Path.isName visit.user := by
  induction h with
  | start => simp
  | run _ hundisturbed ih =>
    intro visit hmem
    rcases List.mem_append.1 hmem with hearlier | hlast
    · exact ih visit hearlier
    · rw [List.mem_singleton.1 hlast]
      exact hundisturbed.isName_user

/-- What is left of a user after some runs is the tree of the one shell of the user's visits. -/
theorem Visits.left (h : Visits root config start visits disk) (hautosave : config.autosave)
    (hempty : ∀ user, Path.isName user → ∀ octets,
      Store.stored ⟨Disk.join root config.storage⟩ start user ≠ .ok octets)
    (huser : Path.isName user) :
    Left ⟨Disk.join root config.storage⟩ user disk
      (Visit.soleShell? (visits.filter fun visit => visit.user = user)) := by
  induction h with
  | start => exact hempty user huser
  | @run visits disk environment console _ hundisturbed ih =>
    rw [Visit.soleShell?_filter_append]
    by_cases hsame :
        ((ofConfig root environment.user? config).visit environment disk console).user = user
    · rw [if_pos hsame]
      subst hsame
      exact (hundisturbed.left_own hautosave (ofConfig root environment.user? config) rfl ih).2
    · rw [if_neg hsame]
      exact hundisturbed.left_other hautosave (ofConfig root environment.user? config) rfl huser
        (Ne.symm hsame) ih

/-- Sessions survive restarts, and users do not mix. When nothing is stored at the start and no run
fails in another way than that its terminal fails, no session starts with a notice, and what is
stored of a user is the tree of one shell that has executed the lines of all visits of this user,
whatever other users have done. -/
theorem Visits.restored (h : Visits root config start visits disk) (hautosave : config.autosave)
    (hempty : ∀ user, Path.isName user → ∀ octets,
      Store.stored ⟨Disk.join root config.storage⟩ start user ≠ .ok octets) :
    (∀ visit ∈ visits, visit.notice = none) ∧
      ∀ user shell,
        Visit.soleShell? (visits.filter fun visit => visit.user = user) = some shell →
          ∃ snapshot,
            Store.load ⟨Disk.join root config.storage⟩ disk user = .ok (some snapshot) ∧
              Snapshot.toTree snapshot = .ok shell.filesystem.root := by
  constructor
  · induction h with
    | start => simp
    | @run _ _ environment _ hearlier hundisturbed ih =>
      intro visit hmem
      rcases List.mem_append.1 hmem with hbefore | hlast
      · exact ih visit hbefore
      · rw [List.mem_singleton.1 hlast]
        exact (hundisturbed.left_own hautosave (ofConfig root environment.user? config) rfl
          (hearlier.left hautosave hempty hundisturbed.isName_user)).1
  · intro user shell hshell
    have huser : Path.isName user := by
      obtain ⟨first, hfirst, -⟩ := Option.map_eq_some_iff.1 hshell
      obtain ⟨hmem, hkept⟩ := List.mem_filter.1 (List.mem_of_head? hfirst)
      rw [← of_decide_eq_true hkept]
      exact h.isName_user first hmem
    have hleft := h.left hautosave hempty huser
    rw [hshell] at hleft
    exact Kept.load hleft huser

/-! ## Two runs of one user -/

/-- A run without a config file, while the clock stands still. -/
def plainRun (nanoseconds : Int) : Environment :=
  ⟨"/r", none, ⟨false⟩, fun _ => .ofNanoseconds nanoseconds, "1"⟩

/-- The session of such a run. -/
def plainSession : Session :=
  ofConfig "/r" none Config.default

/-- The octets of the line `mkdir a`. -/
def makeA : List UInt8 :=
  [109, 107, 100, 105, 114, 32, 97, 10]

/-- The shell of the user after the line. -/
def shellWithA : Shell :=
  (plainSession.transcript (plainRun 0) Disk.empty makeA).shell

/-- What is saved of it. -/
def snapshotWithA : String :=
  (Snapshot.ofTree? shellWithA.filesystem.root).getD ""

theorem serialize_shellWithA :
    shellWithA.filesystem.serialize = .ok snapshotWithA ∧
      snapshotWithA.utf8ByteSize < Snapshot.addressable := by
  have hsmall : ((Snapshot.encode shellWithA.filesystem.root).mapM Snapshot.Entry.toJson?).any
      fun values => Json.octets (Json.writeValue (.array values)) < Snapshot.addressable := by
    rw [Snapshot.encode_eq]
    decide +kernel
  obtain ⟨values, hvalues, hlt⟩ := (Option.any_eq_true _ _).1 hsmall
  have hserialize := Filesystem.serialize_eq_ok.2 ⟨values, hvalues, rfl⟩
  have hsnapshot : snapshotWithA = Json.write (.array values) := by
    rw [snapshotWithA, ofTree?_of_serialize hserialize, Option.getD_some]
  rw [hsnapshot, Json.write, Json.utf8ByteSize_ofList]
  exact ⟨hserialize, by simpa using hlt⟩

/-- The disk after the first run. -/
def diskWithA : Disk :=
  (plainSession.store.save Disk.empty ⟨"user", 0, snapshotWithA⟩).1

/-- Nothing is stored on a disk without files. -/
theorem stored_empty (store : Store) (user : String) (octets : List UInt8) :
    store.stored Disk.empty user ≠ .ok octets := by
  refine Store.stored_ne_ok (fun place octets => ?_) user octets
  rw [Disk.item?]
  split <;> simp [Disk.empty]

theorem undisturbed_makeA :
    Undisturbed "/r" Config.default Disk.empty (plainRun 0) makeA ∧
      (Session.run (plainRun 0) Disk.empty makeA).disk = diskWithA := by
  obtain ⟨hserialize, hfits⟩ := serialize_shellWithA
  obtain ⟨hundisturbed, hdisk, -⟩ := Undisturbed.of_save rfl (by decide +kernel) rfl plainSession
    rfl (by decide) hserialize hfits (by decide +kernel)
  exact ⟨hundisturbed, hdisk⟩

/-- The first run, to its shell. -/
def visitMakeA : Visit :=
  plainSession.visit (plainRun 0) Disk.empty makeA

theorem filesystem_shellWithA :
    shellWithA.filesystem = (visitMakeA.newShell.resume visitMakeA).filesystem := by
  have hopening : plainSession.opening (plainRun 0) Disk.empty = (visitMakeA.newShell, none) := by
    have hload : plainSession.store.load Disk.empty "user" = .ok none := by decide +kernel
    rw [opening, show plainSession.user = "user" from rfl, hload]
    rfl
  exact filesystem_transcript (show visitMakeA.newShell.Standard from rfl) (by rw [hopening]; rfl)
    (by rw [hopening]; rfl) makeA

/-- A console where the line `mkdir a` is entered and nothing can be written. -/
def mute : Repl.Console :=
  ⟨makeA, false, ⟨fun _ => some 0⟩⟩

/-- A second run, which loads the tree of the first one and ends at its first prompt. -/
theorem undisturbed_mute {saved : String}
    (hload : plainSession.store.load diskWithA "user" = .ok (some saved))
    (htree : Snapshot.toTree saved = .ok shellWithA.filesystem.root) :
    Undisturbed "/r" Config.default diskWithA (plainRun 1) mute ∧
      (Session.run (plainRun 1) diskWithA mute).result = .error .terminal := by
  obtain ⟨hserialize, hfits⟩ := serialize_shellWithA
  have hopening : plainSession.opening (plainRun 1) diskWithA =
      ((Shell.startAt (plainRun 1).clock "1" "user").withFilesystem
        ⟨shellWithA.filesystem.root, [], "user"⟩, none) := by
    rw [opening, show plainSession.user = "user" from rfl, hload, begin_of_tree htree]
    rfl
  have hagain : (plainSession.transcript (plainRun 1) diskWithA mute).shell.filesystem.serialize =
      .ok snapshotWithA := by
    rw [transcript, hopening]
    exact hserialize
  obtain ⟨hundisturbed, -, hresult⟩ := Undisturbed.of_save rfl (by decide +kernel) rfl plainSession
    rfl (by decide) hagain hfits (by decide +kernel)
  refine ⟨hundisturbed, hresult.trans ?_⟩
  rw [transcript, hopening]
  rfl

/-- A directory is made in the first run, and is there after the second, though the terminal fails
in it. -/
theorem Visits.restored_makeA :
    (Session.run (plainRun 1) diskWithA mute).result = .error .terminal ∧
      ∃ visits disk snapshot,
        Visits "/r" Config.default Disk.empty visits disk ∧ visits.length = 2 ∧
          disk = (Session.run (plainRun 1) diskWithA mute).disk ∧
          Store.load ⟨Disk.join "/r" Config.default.storage⟩ disk "user" = .ok (some snapshot) ∧
          Snapshot.toTree snapshot = .ok shellWithA.filesystem.root := by
  obtain ⟨hfirst, hdisk⟩ := undisturbed_makeA
  have hvisit : Visits "/r" Config.default Disk.empty [visitMakeA] diskWithA :=
    hdisk ▸ .run .start hfirst
  obtain ⟨saved, hload, htree⟩ := (hvisit.restored rfl fun user _ => stored_empty _ user).2 "user"
    (visitMakeA.newShell.resume visitMakeA) rfl
  rw [← filesystem_shellWithA] at htree
  obtain ⟨hsecond, hresult⟩ := undisturbed_mute hload htree
  have hvisits := hvisit.run hsecond
  generalize hvisit : (ofConfig "/r" (plainRun 1).user? Config.default).visit (plainRun 1)
    diskWithA mute = second at hvisits
  have huser : second.user = "user" := by rw [← hvisit]; rfl
  have hidle : second.executed = [] := by rw [← hvisit]; rfl
  obtain ⟨snapshot, hsnapshot, hsametree⟩ :=
    (hvisits.restored rfl fun user _ => stored_empty _ user).2 "user"
      ((visitMakeA.newShell.resume visitMakeA).resume second) (by
        rw [Visit.soleShell?_filter_append, if_pos huser]
        rfl)
  have hroot : ((visitMakeA.newShell.resume visitMakeA).resume second).filesystem.root =
      shellWithA.filesystem.root := by
    rw [Shell.resume, hidle, filesystem_shellWithA]
    rfl
  rw [hroot] at hsametree
  exact ⟨hresult, _, _, snapshot, hvisits, rfl, rfl, hsnapshot, hsametree⟩

end Session

end PocketShell
