import PocketShell.ProcessTable
import PocketShell.Proofs.Change

/-!
# Operations on the process table

The operations that change a process table, one after another in any order. Those that name a
process look for it first, and fail without a trace if it is not there.
-/

namespace PocketShell.ProcessTable

open PocketShell.Change (Atomic steady_reading sure_modify sure_pure)
open Time (Stamp)

/-- An operation that changes a process table, with all that it is given. -/
inductive Operation where
  | start (id : String) (now : Stamp) (name command output : String)
  | stop (id : String)
  | print (id text : String)
  | kill (now : Stamp) (id : String)
  | clear

namespace Operation

/-- The change that the operation makes. -/
def change : Operation → Change
  | start id now name command output => modify (·.start id now name command output)
  | stop id => .stop id
  | print id text => .print id text
  | kill now id => .kill now id
  | clear => modify (·.clear)

/-- A process is looked for before any is changed, and then nothing can fail. -/
theorem atomic (operation : Operation) : Atomic operation.change := by
  cases operation with
  | start id now name command output => exact (sure_modify _).atomic
  | stop id => exact (steady_reading _).bind_atomic fun _ => (sure_modify _).atomic
  | print id text => exact (steady_reading _).bind_atomic fun _ => (sure_modify _).atomic
  | kill now id =>
    refine (steady_reading _).bind_atomic fun process => ((sure_modify _).bind fun _ => ?_).atomic
    split
    · exact sure_pure _
    · exact sure_modify _
  | clear => exact (sure_modify _).atomic

end Operation

/-- The table after an operation, whether it succeeds or not. -/
def after (table : ProcessTable) (operation : Operation) : ProcessTable :=
  operation.change.after table

/-- The table after some operations, the first of them applied first. -/
def run (table : ProcessTable) (operations : List Operation) : ProcessTable :=
  operations.foldl after table

end PocketShell.ProcessTable
