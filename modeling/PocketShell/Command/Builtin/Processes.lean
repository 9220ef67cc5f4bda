import PocketShell.Command.Builtin.Files

/-!
# Commands on the process table
-/

namespace PocketShell.Command.Builtin

/-- The heading of the table. -/
def processHeading : String := "PID\tSTATUS\tTIME\tCOMMAND"

/-- The row of a process. -/
def processRow (process : ProcessEntry) : String :=
  Text.join "\t"
    [Text.decimal process.pid, process.status.text, process.started.clock, process.command]

def ps : Command where
  page := ⟨"ps", "Report process status", "ps"⟩
  policy := .flags []
  run _ _ := do
    let rows := (← get).processes.processes.map processRow
    pure (.text (Text.join "\n" (processHeading :: rows)))

/-- The pid that a word denotes: an unsigned number of 32 bits, with a plus sign allowed. -/
def pid? (word : String) : Option Nat :=
  let digits := match word.toList with
    | '+' :: rest => rest
    | rest => rest
  (Text.number? Text.digit? 10 digits).filter (· < ProcessTable.pidCount)

/-- A change of the processes, with nothing to show. What went wrong is worded by `blame`. -/
def onProcesses (change : ProcessTable.Change) (blame : ProcessTable.Fault → Fault) : Action := do
  EStateM.adaptExcept blame <| Change.within Machine.processes ({ · with processes := · }) change
  pure (.text "")

def kill : Command where
  page := ⟨"kill", "Kill a process", "kill pid"⟩
  policy := .flags []
  run around invocation := do
    let word ← operand invocation "pid operand"
    let some pid := pid? word | throw (.invalidPid word)
    let some process := (← get).processes.byPid? pid | throw (.noSuchProcess pid)
    if process.isProtected then throw (.protectedProcess pid)
    else onProcesses (.kill around.now process.id) fun _ => .noSuchProcess pid

end PocketShell.Command.Builtin
