import PocketShell.Proofs.Shell.Reachable
import PocketShell.Proofs.Command.Invocation

/-!
# Words that come back

A command that takes options like any other word receives the words of a line as they were typed:
those that options took as their values are put back where they stood, and so are the options. One
such command is `echo`, which shows the words with one space between each two.
-/

namespace PocketShell

open Time (Stamp)

namespace Command.Invocation

open OptionWord (isOption)

theorem spelled_verbatim (words : List String) : spelled .verbatim words = .ok [] := by
  induction words with
  | nil => rfl
  | cons word rest ih =>
    by_cases hword : isOption word
    · rw [spelled_cons hword, ih]
      rfl
    · rw [spelled_argument (by simpa using hword), ih]

/-- No word of a line is lost, moved or spelled in another way. -/
theorem ofLine_verbatim (line : String) :
    ofLine (.parse line) .verbatim = .ok ⟨(Text.words line).tail, []⟩ := by
  rw [ofLine_eq, spelled_verbatim]
  rfl

end Command.Invocation

namespace Shell

open Command (Invocation)

variable {shell : Shell} {line : String}

/-- What a line with `echo` shows. -/
theorem Standard.execute_echo (h : shell.Standard)
    (hecho : (Text.words line).head? = some "echo") (now : Stamp) :
    (shell.execute now line).2 = ⟨false, false,
      shell.shown line :: Outcome.ofText (Text.join " " (Text.words line).tail)⟩ := by
  obtain ⟨rest, hwords⟩ := List.head?_eq_some_iff.1 hecho
  have htrim : Text.words (Text.trim line) = "echo" :: rest := by rw [Text.words_trim, hwords]
  have hfind : shell.registry.find? (lineOf line).command = some Command.Builtin.echo := by
    rw [h, lineOf, CommandLine.parse_eq htrim]
    rfl
  have hpolicy : Command.Builtin.echo.policy = .verbatim := rfl
  rw [execute_eq (Text.trim_not_isEmpty_of_words hwords), Registry.run_dispatch_some hfind,
    hpolicy, lineOf, Invocation.ofLine_verbatim, Text.words_trim]
  rfl

/-- What comes back of a line, as it is given to a command that takes all words and as the shell
shows it for `echo`. -/
structure GivesBack (shell : Shell) (now : Stamp) (line : String) : Prop where
  /-- The words are what the line falls into at its blanks. -/
  words : ∀ words, Text.FallsInto Text.isBlank line.toList words ↔ words = Text.words line
  /-- Every word is put back at a place that is there. -/
  inRange : Invocation.InRange .verbatim ⟨(CommandLine.parse line).arguments, 0, []⟩
    (CommandLine.parse line).options
  received : Invocation.ofLine (.parse line) .verbatim = .ok ⟨(Text.words line).tail, []⟩
  echoed : (Text.words line).head? = some "echo" → (shell.execute now line).2 =
    ⟨false, false, shell.shown line :: Outcome.ofText (Text.join " " (Text.words line).tail)⟩

/-- Every line comes back, in every shell. -/
theorem givesBack_execute (clock : Nat → Stamp) (id user : String) (events : List Event)
    (now : Stamp) (line : String) : GivesBack ((startAt clock id user).run events) now line where
  words _ := Text.fallsInto_iff
  inRange := Invocation.inRange_parse .verbatim line
  received := Invocation.ofLine_verbatim line
  echoed hecho := (standard_run_startAt clock id user events).execute_echo hecho now

/-- Options and their values stay where they are, and only the blanks change. -/
example : ((start (.ofNanoseconds 0) "1" "guest").execute (.ofNanoseconds 0)
    " echo  -n a -- b\t---x ").2.lines =
      [⟨.input, "/ $ echo  -n a -- b\t---x"⟩, ⟨.output, "-n a -- b ---x"⟩] := by
  decide +kernel

end Shell

end PocketShell
