import PocketShell.Arguments
import PocketShell.Session
import Std.Time.DateTime.Timestamp

/-!
# The program

The program runs a session on the disk, the clock and the terminal of the machine. What it decides
is decided by `Session` and its parts; here files are read and written, and lines come and go.
-/

namespace PocketShell.Program

/-- The time. -/
def now : IO Time.Stamp := do
  pure (.ofNanoseconds (← Std.Time.Timestamp.now).toNanosecondsSinceUnixEpoch.val)

/-- An absolute path to a directory, without links if it exists. -/
def absolute (directory : String) : IO String := do
  try
    pure (← IO.FS.realPath directory).toString
  catch _ =>
    pure (Disk.join (← IO.currentDir).toString directory)

/-- What reading a file comes to. -/
def readFile (path : String) : IO (Except Disk.Fault (List UInt8)) := do
  try
    pure (.ok (← IO.FS.readBinFile path).data.toList)
  catch fault =>
    match fault with
    | .noFileOrDirectory .. => pure (.error .notFound)
    | _ => pure (.error .invalid)

/-- Takes a step of a save. -/
def takeStep : Store.Step → IO Unit
  | .createDirectories path => IO.FS.createDirAll path
  | .write path octets => IO.FS.writeBinFile path ⟨octets.toArray⟩
  | .rename source target => IO.FS.rename source target

/-- Takes the steps of a save up to the first that fails. -/
def takeSteps : List Store.Step → IO (Except Store.Fault Unit)
  | [] => pure (.ok ())
  | step :: steps => do
    let done ←
      try
        takeStep step
        pure true
      catch _ => pure false
    if done then takeSteps steps
    else pure (.error (.unwritable (Disk.shown step.path)))

/-- Whether the terminal has colours. -/
def hasColors : IO Bool := do
  let wanted := (← IO.getEnv "NO_COLOR").isNone && (← IO.getEnv "TERM") != some "dumb"
  pure (wanted && (← (← IO.getStdout).isTty))

/-- Shows a text at once, and answers whether that has worked. -/
def display (text : String) : IO Bool := do
  try
    let out ← IO.getStdout
    out.putStr text
    out.flush
    pure true
  catch _ => pure false

/-- Reads octets up to a line feed or the end, behind those read so far. -/
partial def readOctets (octets : List UInt8) : IO (List UInt8) := do
  match (← (← IO.getStdin).read 1).data.toList with
  | octet :: _ => if octet = 10 then pure (octets ++ [10]) else readOctets (octets ++ [octet])
  | [] => pure octets

/-- What reading the next line comes to, unless the input ends. -/
def readLine? : IO (Option (Option (List UInt8))) := do
  try
    pure ((Repl.lines (← readOctets [])).head?.map some)
  catch _ => pure (some none)

/-- Reads and executes lines as `Repl.run` does, and answers with the shell at the end. -/
partial def converse (terminal : Terminal) (shell : Shell) : IO (Shell × Repl.Ending) := do
  if !(← display (Repl.prompt terminal shell)) then pure (shell, .failure)
  else
    match ← readLine? with
    | none => pure (shell, .endOfInput)
    | some octets? =>
      match octets?.bind Text.ofUtf8? with
      | none => pure (shell, .failure)
      | some line =>
        let answer := Repl.reply terminal shell (← now) line
        match answer.ending? (← display answer.output) with
        | some ending => pure (answer.shell, ending)
        | none => converse terminal answer.shell

/-- Restores a session, reads and executes lines, and saves it. -/
def runSession (session : Session) : IO (Except Session.Fault Unit) := do
  let terminal : Terminal := ⟨← hasColors⟩
  let content ← readFile (session.store.file session.user)
  let id := toString (← IO.rand 0 0xFFFFFFFFFFFFFFFF)
  let start ← now
  let (shell, notice) := session.begin (fun _ => start) id
    (session.store.snapshotOf session.user content)
  discard <| display (Session.openingText terminal notice)
  let (shell, ending) ← converse terminal shell
  let finished ← match session.toSave (← now) shell with
    | .error fault => pure (.error fault)
    | .ok none => pure (.ok ())
    | .ok (some record) => do
      match session.store.stepsFor record with
      | .error fault => pure (.error (.save fault))
      | .ok steps => do pure ((← takeSteps steps).mapError .save)
  pure (Session.result ending finished)

/-- Reads the settings of the root directory and runs a session. -/
def run (arguments : Arguments) : IO (Except Session.Fault Unit) := do
  let root ← absolute arguments.root
  match Config.ofContent root (← readFile (Config.file root)) with
  | .error fault => pure (.error (.config fault))
  | .ok config =>
    match Session.prepare root arguments.user? config with
    | .error fault => pure (.error fault)
    | .ok session => runSession session

/-- What is written of a failed session. -/
def failureText (fault : Session.Fault) : String :=
  "Error: " ++ fault.message ++
    (fault.cause?.map ("\n\nCaused by this error:\n  1: " ++ ·)).getD ""

end PocketShell.Program

open PocketShell in
/-- Runs the program and answers with its exit code. -/
def main (texts : List String) : IO UInt32 := do
  match Arguments.parse texts with
  | .error .help => do
    IO.println Arguments.usage
    pure 0
  | .error .version => do
    IO.println "pocketshell 0.1.0"
    pure 0
  | .error fault => do
    IO.eprintln ("error: " ++ fault.message)
    pure 2
  | .ok arguments => do
    match ← Program.run arguments with
    | .ok () => pure 0
    | .error fault => do
      IO.eprintln (Program.failureText fault)
      pure 1
