/-!
# Lines entered before

The history holds the last lines entered, each once, the most recent first. A cursor walks it as
the arrow keys do at a prompt: up to older lines, and down again to the empty line below the most
recent one.
-/

namespace PocketShell

/-- The lines, most recent first, and the index of the line that the cursor shows. -/
structure History where
  lines : List String
  cursor : Option Nat
  deriving DecidableEq, Repr

namespace History

/-- Number of lines kept. -/
def limit : Nat := 50

/-- The history before any line. -/
def empty : History :=
  ⟨[], none⟩

/-- The history with `line` as its most recent line. -/
def record (history : History) (line : String) : History :=
  ⟨(line :: history.lines.filter (· != line)).take limit, none⟩

inductive Direction where
  | up
  | down
  deriving DecidableEq, Repr

/-- The cursor after a key. -/
def moved (history : History) (direction : Direction) : Option Nat :=
  match direction, history.cursor with
  | .up, none => some 0
  | .up, some index => some (min (index + 1) (history.lines.length - 1))
  | .down, some (index + 1) => some index
  | .down, _ => none

/-- The history after a key, and the line to show: none without history, the empty line below the
most recent one. -/
def navigate (history : History) (direction : Direction) : History × Option String :=
  if history.lines.isEmpty then (history, none)
  else
    let cursor := history.moved direction
    ({ history with cursor }, some ((cursor.bind (history.lines[·]?)).getD ""))

def mostRecentFirst (history : History) : List String :=
  history.lines

def oldestFirst (history : History) : List String :=
  history.lines.reverse

end History

end PocketShell
