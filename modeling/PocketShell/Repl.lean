import PocketShell.Terminal

/-!
# Reading and executing lines

Lines are read up to one that asks to leave, one that cannot be read or the end. A prompt precedes
each of them. A line that ends with a tab is not executed but completed. Once a text cannot be
written, nothing more is read.
-/

namespace PocketShell.Repl

open Time (Stamp)

/-! ## Lines -/

/-- A line without a carriage return at its end. -/
def dropReturn (line : List UInt8) : List UInt8 :=
  if line.getLast? = some 13 then line.dropLast else line

/-- The lines that end with a line feed, without it and a carriage return right before it. -/
def endedLines (octets : List UInt8) : List (List UInt8) :=
  (octets.splitOn 10).dropLast.map dropReturn

/-- The lines of some octets: those that end with a line feed, and what follows the last line feed
unless it is empty. -/
def lines (octets : List UInt8) : List (List UInt8) :=
  let last := (octets.splitOn 10).getLastD []
  endedLines octets ++ (if last.isEmpty then [] else [last])

/-- The text that a line asks to complete. -/
def toComplete? (line : String) : Option String :=
  if line.toList.getLast? = some '\t' then some (String.ofList line.toList.dropLast) else none

/-! ## Input and output -/

/-- How the texts fare that are written one after another: behind how many of its characters each of
them breaks off, if writing it fails. -/
structure Output where
  cut? : Nat → Option Nat

namespace Output

/-- The output to which writing never fails. -/
def reliable : Output :=
  ⟨fun _ => none⟩

/-- The output for what is written after some texts. -/
def after (output : Output) (texts : Nat) : Output :=
  ⟨fun i => output.cut? (texts + i)⟩

/-- Whether the text at some place in their order is written as a whole. -/
def takes (output : Output) (i : Nat) : Bool :=
  (output.cut? i).isNone

/-- What comes out of the text at some place in their order. -/
def shown (output : Output) (i : Nat) (text : String) : String :=
  match output.cut? i with
  | none => text
  | some count => String.ofList (text.toList.take count)

end Output

/-- Where lines come from and texts go to. -/
structure Console where
  octets : List UInt8
  /-- Whether reading fails behind the octets, where else the input ends. -/
  broken : Bool
  output : Output

/-- Some octets, with no failure of the input or the output. -/
instance : Coe (List UInt8) Console :=
  ⟨fun octets => ⟨octets, false, .reliable⟩⟩

/-- What the readings of lines come to up to the end of the input, or to the one that fails, which
loses what follows the last line feed. -/
def Console.readings (console : Console) : List (Option (List UInt8)) :=
  if console.broken then (endedLines console.octets).map some ++ [none]
  else (lines console.octets).map some

/-! ## Replies -/

/-- What becomes of a line. -/
structure Reply where
  shell : Shell
  output : String
  exitRequested : Bool

/-- Executes a line at the given time, or completes it. -/
def reply (terminal : Terminal) (shell : Shell) (now : Stamp) (line : String) : Reply :=
  match toComplete? line with
  | some input => ⟨shell, Terminal.completion (shell.complete input), false⟩
  | none =>
    let (shell, outcome) := shell.execute now line
    ⟨shell, terminal.outcome outcome, outcome.exitRequested⟩

/-- The prompt before the next line. -/
def prompt (terminal : Terminal) (shell : Shell) : String :=
  terminal.prompt shell.filesystem.currentPath

/-! ## Runs -/

/-- Why no more lines are read. -/
inductive Ending where
  | exit
  | endOfInput
  /-- A line is not UTF-8, or reading one or writing a text fails. -/
  | failure
  deriving DecidableEq, Repr

/-- Why no more lines are read after a reply, given whether its text could be written. -/
def Reply.ending? (reply : Reply) (written : Bool) : Option Ending :=
  if !written then some .failure
  else if reply.exitRequested then some .exit
  else none

/-- What becomes of some lines. -/
structure Transcript where
  shell : Shell
  output : String
  ending : Ending

/-- Reads lines, each at its time. The texts that are written are a prompt and a reply in turn. -/
def run (terminal : Terminal) (output : Output) (shell : Shell)
    (entered : List (Stamp × Option (List UInt8))) : Transcript :=
  let prompted := output.shown 0 (prompt terminal shell)
  if !output.takes 0 then ⟨shell, prompted, .failure⟩
  else
    match entered with
    | [] => ⟨shell, prompted, .endOfInput⟩
    | (now, octets?) :: rest =>
      match octets?.bind Text.ofUtf8? with
      | none => ⟨shell, prompted, .failure⟩
      | some line =>
        let answer := reply terminal shell now line
        let shown := prompted ++ output.shown 1 answer.output
        match answer.ending? (output.takes 1) with
        | some ending => ⟨answer.shell, shown, ending⟩
        | none =>
          let next := run terminal (output.after 2) answer.shell rest
          { next with output := shown ++ next.output }

end PocketShell.Repl
