import PocketShell.Command.Builtin.Files

/-!
# Commands on the session
-/

namespace PocketShell.Command.Builtin

def echo : Command where
  page := ⟨"echo", "Display a line of text", "echo [string...]"⟩
  policy := .verbatim
  run _ invocation := pure (.text (Text.join " " invocation.arguments))

def clear : Command where
  page := ⟨"clear", "Clear the terminal screen", "clear"⟩
  policy := .flags []
  run _ _ := pure .clear

/-- The row of a command in the overview. -/
def helpRow (page : ManualPage) : String :=
  Text.padRight 10 page.name ++ " - " ++ page.description ++ "\n"

/-- The overview of all commands. -/
def overview (manual : List ManualPage) : String :=
  "Available commands:\n\n" ++ Text.join "" (manual.map helpRow) ++
    "\nType \"help [command]\" for more information about a specific command."

/-- What the manual shows of one command. -/
def helpText (page : ManualPage) : String :=
  page.name ++ " - " ++ page.description ++ "\n\nUsage: " ++ page.usage

def help : Command where
  page := ⟨"help", "Display information about builtin commands", "help [command]"⟩
  policy := .flags []
  run around invocation :=
    match invocation.first? with
    | none => pure (.text (overview around.manual))
    | some topic =>
      match around.manual.find? (·.name == topic) with
      | some page => pure (.text (helpText page))
      | none => throw (.noHelpTopic topic)

/-- A line of the history behind its number. -/
def historyRow (line : String) (index : Nat) : String :=
  Text.padLeft 4 ' ' (Text.decimal (index + 1)) ++ "  " ++ line

def history : Command where
  page := ⟨"history", "Show previously entered commands", "history"⟩
  policy := .flags []
  run around _ :=
    pure (.text (Text.join "\n" (around.history.oldestFirst.mapIdx fun i l => historyRow l i)))

def exit : Command where
  page := ⟨"exit", "Save the session and leave the shell", "exit"⟩
  policy := .flags []
  run _ _ := pure .exit

end PocketShell.Command.Builtin
