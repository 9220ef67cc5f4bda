import PocketShell.Config
import PocketShell.Repl
import PocketShell.Store

/-!
# Sessions

A session is what happens between start and end of the program: the settings are read, the last
session of the user is restored, lines are executed, and the session is saved. A saved session that
cannot be restored is noted, and the session starts with the initial tree.
-/

namespace PocketShell

open Time (Stamp)

/-- Whose session it is and what becomes of it. -/
structure Session where
  user : String
  /-- Whether it is saved at its end. -/
  autosave : Bool
  store : Store
  deriving DecidableEq, Repr

namespace Session

/-! ## Faults -/

/-- Why a session fails. -/
inductive Fault where
  | config (cause : Config.Fault)
  | invalidUser (user : String)
  | terminal
  | serialize (cause : Filesystem.Fault)
  | save (cause : Store.Fault)
  deriving DecidableEq, Repr

/-- The wording of a fault. -/
def Fault.message : Fault → String
  | config _ => "Critical failure encountered during configuration stage"
  | invalidUser user => "'" ++ user ++ "' is not a valid user name"
  | terminal => "Terminal input or output failed"
  | serialize _ => "Failed to serialize the session"
  | save _ => "Failed to save the session"

/-- The wording of what is behind a fault. -/
def Fault.cause? : Fault → Option String
  | config cause => some cause.message
  | serialize cause => some cause.message
  | save cause => some cause.message
  | invalidUser _ | terminal => none

/-! ## Stages -/

/-- The session of the given user, or else that of the settings, in a root directory, which is an
absolute path. -/
def prepare (root : String) (user? : Option String) (config : Config) : Except Fault Session :=
  let user := user?.getD config.user
  if Path.isName user then .ok ⟨user, config.autosave, ⟨Disk.join root config.storage⟩⟩
  else .error (.invalidUser user)

/-- The notice of a session that cannot be restored. -/
def freshNotice (reason : String) : String :=
  "Starting fresh: " ++ reason

/-- The shell at the start of the session, given the readings of the clock while it is made and what
loading the last one comes to, and a notice if it cannot be restored. -/
def begin (session : Session) (clock : Nat → Stamp) (id : String)
    (loaded : Except Store.Fault (Option String)) : Shell × Option String :=
  let fresh := Shell.startAt clock id session.user
  match loaded with
  | .ok none => (fresh, none)
  | .error fault => (fresh, some (freshNotice fault.message))
  | .ok (some snapshot) =>
    match (Shell.restore snapshot).run fresh with
    | .ok () shell => (shell, none)
    | .error fault shell => (shell, some (freshNotice fault.message))

/-- What is saved of a shell: nothing unless the settings ask for it. -/
def toSave (session : Session) (now : Stamp) (shell : Shell) :
    Except Fault (Option Store.Record) :=
  if session.autosave then
    match shell.filesystem.serialize with
    | .ok snapshot => .ok (some ⟨session.user, now.seconds, snapshot⟩)
    | .error fault => .error (.serialize fault)
  else .ok none

/-- Saves a shell at the end of the session. -/
def finish (session : Session) (disk : Disk) (now : Stamp) (shell : Shell) :
    Disk × Except Fault Unit :=
  match session.toSave now shell with
  | .error fault => (disk, .error fault)
  | .ok none => (disk, .ok ())
  | .ok (some record) =>
    let (after, saved) := session.store.save disk record
    (after, saved.mapError .save)

/-- The result of a session, given how the reading of lines ended and the result of what followed,
which comes first. -/
def result (ending : Repl.Ending) (finished : Except Fault Unit) : Except Fault Unit := do
  finished
  if ending = .failure then throw .terminal

/-! ## The whole session -/

/-- Where, for whom and with what a session is run. -/
structure Environment where
  /-- The root directory, an absolute path. -/
  root : String
  /-- The user, in place of the one of the settings. -/
  user? : Option String
  terminal : Terminal
  /-- The time of each reading of the clock: while the shell is made, at each line and at the
  end. -/
  clock : Nat → Stamp
  /-- The identifier of the process of the system. -/
  processId : String

/-- What becomes of a session. -/
structure Run where
  disk : Disk
  output : String
  result : Except Fault Unit

/-- The session that the settings and the environment ask for. -/
def Environment.session (environment : Environment) (disk : Disk) : Except Fault Session := do
  let config ← (Config.read disk environment.root).mapError Fault.config
  prepare environment.root environment.user? config

/-- What the readings of lines come to, each at its time. -/
def Environment.entered (environment : Environment) (console : Repl.Console) :
    List (Stamp × Option (List UInt8)) :=
  console.readings.mapIdx fun i octets? => (environment.clock (Shell.startReadings + i), octets?)

/-- The time at which the session is saved, after some lines. -/
def Environment.closing (environment : Environment)
    (entered : List (Stamp × Option (List UInt8))) : Stamp :=
  environment.clock (Shell.startReadings + entered.length)

/-- The shell at the start of a session, and a notice if the last one cannot be restored. -/
def opening (session : Session) (environment : Environment) (disk : Disk) :
    Shell × Option String :=
  session.begin environment.clock environment.processId (session.store.load disk session.user)

/-- What is written before the first prompt: a notice, or an empty text. -/
def openingText (terminal : Terminal) (notice : Option String) : String :=
  (notice.map terminal.notice).getD ""

/-- Runs a session at a console. The session goes on if writing the notice fails. -/
def run (environment : Environment) (disk : Disk) (console : Repl.Console) : Run :=
  match environment.session disk with
  | .error fault => ⟨disk, "", .error fault⟩
  | .ok session =>
    let (shell, notice) := session.opening environment disk
    let entered := environment.entered console
    let transcript := Repl.run environment.terminal (console.output.after 1) shell entered
    let (after, finished) := session.finish disk (environment.closing entered) transcript.shell
    { disk := after
      output :=
        console.output.shown 0 (openingText environment.terminal notice) ++ transcript.output
      result := result transcript.ending finished }

end Session

end PocketShell
