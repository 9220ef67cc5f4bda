import PocketShell.Text

/-!
# Command lines

A line is cut into words at blanks; there is no quoting. The first word is the command. Of the
others, a word that starts with a dash is an option and takes the next word as its value, unless
that word is missing or an option too. What is left are the arguments. Each option remembers how
many arguments stand before it, so that a command to which its value means nothing can put the word
back where it was written.
-/

namespace PocketShell

/-- One option on a command line. -/
structure OptionWord where
  /-- The word without its dashes. -/
  name : String
  /-- The word taken as the value. -/
  value? : Option String
  /-- Whether it is written with two dashes. -/
  long : Bool
  /-- How many arguments stand before it. -/
  position : Nat
  deriving DecidableEq, Repr

namespace OptionWord

/-- What an option without a value reads as. -/
def impliedValue : String := "true"

/-- The value that the option reads as. -/
def value (option : OptionWord) : String :=
  option.value?.getD impliedValue

/-- The option as it is written, without its value. -/
def token (option : OptionWord) : String :=
  (if option.long then "--" else "-") ++ option.name

/-- Whether a word is an option. -/
def isOption (word : String) : Bool :=
  Text.beginsWith word '-'

/-- The option that a word starting with a dash is. -/
def ofWord (word : String) (value? : Option String) (position : Nat) : OptionWord :=
  match word.toList with
  | '-' :: '-' :: name => ⟨String.ofList name, value?, true, position⟩
  | '-' :: name => ⟨String.ofList name, value?, false, position⟩
  | name => ⟨String.ofList name, value?, false, position⟩

end OptionWord

/-- A command, its arguments, and its options in the order written. -/
structure CommandLine where
  command : String
  arguments : List String
  options : List OptionWord
  deriving DecidableEq, Repr

namespace CommandLine

/-- The arguments and options among the words after the command, with `position` arguments before
them. -/
def scan (position : Nat) : List String → List String × List OptionWord
  | [] => ([], [])
  | [word] =>
    if OptionWord.isOption word then ([], [.ofWord word none position]) else ([word], [])
  | word :: next :: rest =>
    if OptionWord.isOption word then
      if OptionWord.isOption next then
        let (arguments, options) := scan position (next :: rest)
        (arguments, .ofWord word none position :: options)
      else
        let (arguments, options) := scan position rest
        (arguments, .ofWord word (some next) position :: options)
    else
      let (arguments, options) := scan (position + 1) (next :: rest)
      (word :: arguments, options)

/-- The parts of a line. A blank line has the empty command. -/
def parse (line : String) : CommandLine :=
  match Text.words line with
  | [] => ⟨"", [], []⟩
  | command :: words =>
    let (arguments, options) := scan 0 words
    ⟨command, arguments, options⟩

/-- The value of the option `name`, of its last occurrence if there are several. -/
def option? (line : CommandLine) (name : String) : Option String :=
  (line.options.reverse.find? (·.name == name)).map OptionWord.value

end CommandLine

end PocketShell
