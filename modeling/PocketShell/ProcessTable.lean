import PocketShell.Change
import PocketShell.Time.Stamp

/-!
# The process table

Processes are listed in the order in which they were started, the first of them being that of the
system. A process whose name starts with `system` is protected: it is never taken from the table.
Each process has a pid of 32 bits, given in sequence and not given again before all of them have
been given, and an identifier, which whoever starts it has to choose afresh.
-/

namespace PocketShell

open Time (Stamp)

inductive ProcessStatus where
  | running
  | stopped
  | finished
  deriving DecidableEq, Repr

/-- The wording of a status. -/
def ProcessStatus.text : ProcessStatus → String
  | running => "running"
  | stopped => "stopped"
  | finished => "finished"

structure ProcessEntry where
  id : String
  name : String
  command : String
  pid : Nat
  status : ProcessStatus
  started : Stamp
  ended : Option Stamp
  output : String
  deriving DecidableEq, Repr

namespace ProcessEntry

/-- What the names of protected processes start with. -/
def protectedStart : String := "system"

/-- Whether a process of this name is protected. -/
def isProtectedName (name : String) : Bool :=
  Text.hasPrefix name protectedStart

def isProtected (process : ProcessEntry) : Bool :=
  isProtectedName process.name

/-- The process, finished at `now`. -/
def finish (now : Stamp) (process : ProcessEntry) : ProcessEntry :=
  { process with status := .finished, ended := some now }

def stop (process : ProcessEntry) : ProcessEntry :=
  { process with status := .stopped }

/-- The process with more output, on a new line if there is some already. -/
def print (text : String) (process : ProcessEntry) : ProcessEntry :=
  let joined := if process.output.isEmpty then text else process.output ++ "\n" ++ text
  { process with output := joined }

end ProcessEntry

/-- All processes, and the pid of the next. -/
structure ProcessTable where
  processes : List ProcessEntry
  nextPid : Nat
  deriving DecidableEq, Repr

namespace ProcessTable

/-- How many pids there are. -/
def pidCount : Nat := 0x100000000

/-- Why an operation on the table fails: no process has the identifier. -/
inductive Fault where
  | noSuchProcess (id : String)
  deriving DecidableEq, Repr

/-- The wording of a fault. -/
def Fault.message : Fault → String
  | noSuchProcess id => "No process with id " ++ id

/-- The process that is started next. -/
def nextProcess (table : ProcessTable) (id : String) (now : Stamp)
    (name command output : String) : ProcessEntry :=
  { id, name, command, pid := table.nextPid, status := .running, started := now, ended := none,
    output }

/-- Starts a process under the identifier `id`. -/
def start (table : ProcessTable) (id : String) (now : Stamp) (name command output : String) :
    ProcessTable :=
  { processes := table.processes ++ [table.nextProcess id now name command output]
    nextPid := (table.nextPid + 1) % pidCount }

/-- The table that holds the process of the system alone, as pid 1. -/
def boot (id : String) (now : Stamp) : ProcessTable :=
  start ⟨[], 1⟩ id now "system-init" "init" "System initialization process"

def byId? (table : ProcessTable) (id : String) : Option ProcessEntry :=
  table.processes.find? (·.id == id)

def byPid? (table : ProcessTable) (pid : Nat) : Option ProcessEntry :=
  table.processes.find? (·.pid == pid)

/-- The processes that run. -/
def running (table : ProcessTable) : List ProcessEntry :=
  table.processes.filter (·.status == .running)

/-- The list with the first process of the given identifier changed by `f`. -/
def modifyFirst (id : String) (f : ProcessEntry → ProcessEntry) :
    List ProcessEntry → List ProcessEntry
  | [] => []
  | process :: rest =>
    if process.id = id then f process :: rest else process :: modifyFirst id f rest

/-- The table with the first process of the given identifier changed by `f`. -/
def alter (table : ProcessTable) (id : String) (f : ProcessEntry → ProcessEntry) : ProcessTable :=
  { table with processes := modifyFirst id f table.processes }

/-- The process of the given identifier. -/
def find (table : ProcessTable) (id : String) : Except Fault ProcessEntry :=
  match table.byId? id with
  | some process => pure process
  | none => throw (.noSuchProcess id)

/-- Drops every process that is not protected. -/
def clear (table : ProcessTable) : ProcessTable :=
  { table with processes := table.processes.filter ProcessEntry.isProtected }

/-! ## Changes -/

/-- Something that changes a table in place, and may fail. -/
abbrev Change : Type :=
  PocketShell.Change ProcessTable Fault Unit

namespace Change

open PocketShell.Change (reading)

def stop (id : String) : Change := do
  let _ ← reading (·.find id)
  modify (·.alter id ProcessEntry.stop)

/-- Adds to the output of a process. -/
def print (id text : String) : Change := do
  let _ ← reading (·.find id)
  modify (·.alter id (ProcessEntry.print text))

/-- Finishes a process. Unless it is protected, it leaves the table, with all of its identifier. -/
def kill (now : Stamp) (id : String) : Change := do
  let process ← reading (·.find id)
  modify (·.alter id (ProcessEntry.finish now))
  if process.isProtected then pure ()
  else modify fun table => { table with processes := table.processes.filter (·.id != id) }

end Change

end ProcessTable

end PocketShell
