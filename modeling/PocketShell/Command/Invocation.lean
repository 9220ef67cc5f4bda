import PocketShell.Command.Fault
import PocketShell.CommandLine

/-!
# What a command receives

A command either knows a set of flags or takes all words as they are written. Flags have no value,
so the word that the line bound to an option is put back among the arguments, at the place where it
stands on the line; and to a command that takes all words, the options themselves are put back too.
-/

namespace PocketShell.Command

/-- A flag that a command knows, as in `-r` and `--recursive`. -/
structure FlagSpec where
  short : Char
  long : String
  deriving DecidableEq, Repr

/-- How a command wants its options. -/
inductive OptionPolicy where
  /-- Only these flags; any other option is refused. -/
  | flags (specs : List FlagSpec)
  /-- Options are words like any other. -/
  | verbatim
  deriving DecidableEq, Repr

/-- The arguments of a command, and the long names of the flags that are set. -/
structure Invocation where
  arguments : List String
  flags : List String
  deriving DecidableEq, Repr

/-- The long name of the flag that a character spells, of the first if several do. -/
def longNameOf? (specs : List FlagSpec) (short : Char) : Option String :=
  (specs.find? (·.short == short)).map FlagSpec.long

/-- The long names of the flags that an option spells. Several short ones may stand behind one
dash; a dash alone spells none and is refused. -/
def flagsOf? (specs : List FlagSpec) (option : OptionWord) : Option (List String) :=
  if option.long then
    (specs.find? (·.long == option.name)).map fun spec => [spec.long]
  else if option.name.toList.isEmpty then none
  else option.name.toList.mapM (longNameOf? specs)

namespace Invocation

/-- Whether the flag with this long name is set. -/
def flag (invocation : Invocation) (long : String) : Bool :=
  invocation.flags.contains long

/-- The first argument. -/
def first? (invocation : Invocation) : Option String :=
  invocation.arguments.head?

/-- Arguments and flags while the options of a line are applied one after another. -/
structure Progress where
  arguments : List String
  /-- How many words were put back so far. -/
  inserted : Nat
  flags : List String
  deriving DecidableEq, Repr

/-- The words with others put in before the one at `place`. -/
def splice (words : List String) (place : Nat) (others : List String) : List String :=
  words.take place ++ others ++ words.drop place

/-- The words that go back among the arguments, and the flags that are set, for one option. -/
def answer (policy : OptionPolicy) (option : OptionWord) :
    Except Fault (List String × List String) :=
  match policy with
  | .verbatim => pure (option.token :: option.value?.toList, [])
  | .flags specs =>
    match flagsOf? specs option with
    | some flags => pure (option.value?.toList, flags)
    | none => throw (.unknownOption option.token)

/-- Applies one option. -/
def applyOption (policy : OptionPolicy) (progress : Progress) (option : OptionWord) :
    Except Fault Progress := do
  let (words, flags) ← answer policy option
  pure
    { arguments := splice progress.arguments (option.position + progress.inserted) words
      inserted := progress.inserted + words.length
      flags := progress.flags ++ flags }

/-- What a command of the given policy receives from a line. -/
def ofLine (line : CommandLine) (policy : OptionPolicy) : Except Fault Invocation := do
  let done ← line.options.foldlM (applyOption policy) ⟨line.arguments, 0, []⟩
  pure ⟨done.arguments, done.flags⟩

end Invocation

end PocketShell.Command
