import PocketShell.Shell

/-!
# The terminal

What the shell shows is written to a terminal, in colours if it has them. The lines entered are not
repeated: the terminal shows them as they are typed.
-/

namespace PocketShell

/-- Where the shell writes. -/
structure Terminal where
  colored : Bool
  deriving DecidableEq, Repr

namespace Terminal

/-! ## Colours -/

/-- What is painted. -/
inductive Style where
  | prompt
  | error
  | notice
  deriving DecidableEq, Repr

/-- The sequence that turns a style on. -/
def Style.start : Style → String
  | prompt => "\x1b[1;32m"
  | error => "\x1b[31m"
  | notice => "\x1b[33m"

/-- The sequence that turns all styles off. -/
def plain : String := "\x1b[0m"

/-- The sequence that wipes the screen. -/
def clearScreen : String := "\x1b[2J\x1b[H"

/-- The characters with a style turned on again behind each sequence that turns it off. -/
def resume (style : List Char) : List Char → List Char
  | '\x1b' :: '[' :: '0' :: 'm' :: cs => '\x1b' :: '[' :: '0' :: 'm' :: (style ++ resume style cs)
  | c :: cs => c :: resume style cs
  | [] => []

/-- A text in a style. -/
def paint (terminal : Terminal) (style : Style) (text : String) : String :=
  if terminal.colored then
    style.start ++ String.ofList (resume style.start.toList text.toList) ++ plain
  else text

/-! ## Texts -/

/-- The prompt in a working directory. -/
def prompt (terminal : Terminal) (path : String) : String :=
  terminal.paint .prompt (Shell.promptText path) ++ " "

/-- A shown line. -/
def line (terminal : Terminal) (line : TerminalLine) : String :=
  match line.kind with
  | .input => ""
  | .output => line.text ++ "\n"
  | .error => terminal.paint .error line.text ++ "\n"

/-- What executing a line shows. -/
def outcome (terminal : Terminal) (outcome : Outcome) : String :=
  (if outcome.didClear then clearScreen else "") ++
    String.join (outcome.lines.map terminal.line)

/-- How an input can be completed: the completed line, or all names. -/
def completion : Completion → String
  | .none => ""
  | .unique line => line ++ "\n"
  | .ambiguous names => Text.join "  " names ++ "\n"

/-- A notice. -/
def notice (terminal : Terminal) (text : String) : String :=
  terminal.paint .notice text ++ "\n"

end Terminal

end PocketShell
