import PocketShell.Proofs.Repl.Lines
import PocketShell.Proofs.Shell.Lines

/-!
# What becomes of an input

The law of the loop that reads lines, line by line: which lines are read, which shell each of them
meets, what is shown for it, and how the loop ends. All of it stands as long as texts can be
written, up to the first that cannot.
-/

namespace PocketShell

open Time (Stamp)

namespace Repl

/-- The lines, each at the time that the clock shows for it. -/
def timed (clock : Nat → Stamp) (lines : List (List UInt8)) :
    List (Stamp × Option (List UInt8)) :=
  lines.mapIdx fun i line => (clock i, some line)

/-- The lines up to the first that is not UTF-8 or cannot be read, each at its time. -/
def readable : List (Stamp × Option (List UInt8)) → List (Stamp × String)
  | [] => []
  | (now, octets?) :: rest =>
    match octets?.bind Text.ofUtf8? with
    | none => []
    | some line => (now, line) :: readable rest

/-- Whether a line is completed instead of executed. -/
def endsInTab (line : String) : Bool :=
  line.toList.getLast? == some '\t'

end Repl

/-- The shell after some lines, those left out that end in a tab. -/
def Shell.afterLines (shell : Shell) (lines : List (Stamp × String)) : Shell :=
  shell.executeAll (lines.filter fun line => !Repl.endsInTab line.2)

namespace Repl

/-- A line asks to leave the shell that it meets. -/
def exits (shell : Shell) (line : Stamp × String) : Bool :=
  !endsInTab line.2 && (shell.execute line.1 line.2).2.exitRequested

/-- What is shown of an outcome: the lines that are not the input, on a wiped screen after a
clear. -/
def rendered (terminal : Terminal) (outcome : Outcome) : String :=
  (if outcome.didClear then Terminal.clearScreen else "") ++
    String.join ((outcome.lines.filter (·.kind ≠ .input)).map terminal.line)

/-- What is shown for a line in the shell that it meets. -/
def shown (terminal : Terminal) (shell : Shell) (line : Stamp × String) : String :=
  if endsInTab line.2 then
    Terminal.completion (shell.complete (String.ofList line.2.toList.dropLast))
  else rendered terminal (shell.execute line.1 line.2).2

/-- What is shown while some lines are read: each prompt, and what is shown for the line behind it,
both in the shell after the lines before. -/
def shownFor (terminal : Terminal) (shell : Shell) (read : List (Stamp × String)) : String :=
  String.join <| read.mapIdx fun i line =>
    prompt terminal (shell.afterLines (read.take i)) ++
      shown terminal (shell.afterLines (read.take i)) line

/-- What becomes of the lines that are entered, when the lines of `read` are read and all texts can
be written. The shell that a line meets is the one after those that are read before it. -/
structure Trace (terminal : Terminal) (shell : Shell)
    (entered : List (Stamp × Option (List UInt8))) (read : List (Stamp × String))
    (transcript : Transcript) : Prop where
  /-- Lines are read in order, and none from the first that is not UTF-8 or cannot be read. -/
  read_prefix : read <+: readable entered
  /-- None is read after one that asks to leave. -/
  stays : ∀ before line after, read = before ++ line :: after →
    exits (shell.afterLines before) line → after = []
  exit_iff : transcript.ending = .exit ↔
    ∃ before line, read = before ++ [line] ∧ exits (shell.afterLines before) line
  /-- If none asks to leave, all are read. -/
  read_all : transcript.ending ≠ .exit → read = readable entered
  failure_iff : transcript.ending = .failure ↔
    transcript.ending ≠ .exit ∧ ∃ line ∈ entered, line.2.bind Text.ofUtf8? = none
  shell_eq : transcript.shell = shell.afterLines read
  /-- The prompt comes once more unless a line has asked to leave. -/
  output_eq : transcript.output = shownFor terminal shell read ++
    if transcript.ending = .exit then "" else prompt terminal transcript.shell

/-- The number of texts that are written while some lines are read, until the loop ends. -/
def texts (read : List (Stamp × String)) (ending : Ending) : Nat :=
  2 * read.length + if ending = .exit then 0 else 1

/-- What becomes of the lines when texts cannot be written, given the lines that are read and what
becomes of them when all can be. -/
structure Withstands (terminal : Terminal) (shell : Shell)
    (entered : List (Stamp × Option (List UInt8))) (read : List (Stamp × String))
    (transcript : Transcript) : Prop where
  /-- All is the same if only texts that are not reached cannot be written. -/
  same : ∀ output, (∀ i < texts read transcript.ending, output.takes i) →
    run terminal output shell entered = transcript
  /-- The loop ends at the first text that cannot be written. The texts are a prompt and a reply in
  turn, so that half of those up to it are replies, each to a line that has been executed. -/
  broken : ∀ output i, i < texts read transcript.ending → (∀ j < i, output.takes j) →
    ¬output.takes i →
      (run terminal output shell entered).ending = .failure ∧
      (run terminal output shell entered).shell = shell.afterLines (read.take ((i + 1) / 2)) ∧
      (run terminal output shell entered).output.toList <+: transcript.output.toList

/-! ## One line -/

theorem toComplete?_eq (line : String) :
    toComplete? line =
      if endsInTab line then some (String.ofList line.toList.dropLast) else none := by
  simp [toComplete?, endsInTab]

variable {terminal : Terminal} {shell : Shell}

theorem outcome_eq_rendered (outcome : Outcome) :
    terminal.outcome outcome = rendered terminal outcome := by
  rw [Terminal.outcome, rendered]
  congr 1
  induction outcome.lines with
  | nil => rfl
  | cons line rest ih =>
    by_cases hinput : line.kind = .input
    · have hline : terminal.line line = "" := by rw [Terminal.line, hinput]
      simpa [hinput, hline] using ih
    · simpa [hinput] using ih

theorem afterLines_cons (line : Stamp × String) (lines : List (Stamp × String)) :
    shell.afterLines (line :: lines) = (shell.afterLines [line]).afterLines lines := by
  rw [Shell.afterLines, Shell.afterLines, Shell.afterLines, ← List.singleton_append,
    List.filter_append, Shell.executeAll, List.foldl_append]
  rfl

@[simp] theorem afterLines_nil : shell.afterLines [] = shell := rfl

@[simp] theorem shownFor_nil : shownFor terminal shell [] = "" := rfl

theorem shownFor_cons (line : Stamp × String) (read : List (Stamp × String)) :
    shownFor terminal shell (line :: read) = prompt terminal shell ++ shown terminal shell line ++
      shownFor terminal (shell.afterLines [line]) read := by
  have hlater : ∀ i, shell.afterLines ((line :: read).take (i + 1)) =
      (shell.afterLines [line]).afterLines (read.take i) := fun i => afterLines_cons line _
  rw [shownFor, List.mapIdx_cons, String.join_cons]
  simp only [hlater]
  rfl

/-- What becomes of a line. -/
theorem reply_eq (line : Stamp × String) :
    reply terminal shell line.1 line.2 =
      ⟨shell.afterLines [line], shown terminal shell line, exits shell line⟩ := by
  rw [reply, toComplete?_eq, shown, exits, Shell.afterLines]
  by_cases htab : endsInTab line.2
  · simp [htab, Shell.executeAll]
  · simp [htab, Shell.executeAll, outcome_eq_rendered]

variable {output : Output}

theorem Output.shown_of_takes {i : Nat} (h : output.takes i) (text : String) :
    output.shown i text = text := by
  rw [Output.shown, Option.isNone_iff_eq_none.1 h]

/-- What comes out of a text is where it begins. -/
theorem Output.shown_prefix (output : Output) (i : Nat) (text : String) :
    (output.shown i text).toList <+: text.toList := by
  rw [Output.shown]
  split
  · exact List.prefix_refl _
  · rw [String.toList_ofList]
    exact List.take_prefix ..

variable {entered rest : List (Stamp × Option (List UInt8))} {line : Stamp × String}
  {octets? : Option (List UInt8)}

theorem run_of_refused (h : ¬output.takes 0) :
    run terminal output shell entered =
      ⟨shell, output.shown 0 (prompt terminal shell), .failure⟩ := by
  cases entered <;> simp [run, h]

theorem run_nil (h : output.takes 0) :
    run terminal output shell [] = ⟨shell, prompt terminal shell, .endOfInput⟩ := by
  simp [run, h, Output.shown_of_takes h]

theorem run_of_unreadable {now : Stamp} (h : output.takes 0)
    (hline : octets?.bind Text.ofUtf8? = none) :
    run terminal output shell ((now, octets?) :: rest) =
      ⟨shell, prompt terminal shell, .failure⟩ := by
  simp [run, h, hline, Output.shown_of_takes h]

/-- The reply to a line cannot be written, though it has been executed. -/
theorem run_of_unanswered (h : output.takes 0) (hreply : ¬output.takes 1)
    (hline : octets?.bind Text.ofUtf8? = some line.2) :
    run terminal output shell ((line.1, octets?) :: rest) =
      ⟨shell.afterLines [line],
        prompt terminal shell ++ output.shown 1 (shown terminal shell line), .failure⟩ := by
  simp [run, h, hreply, hline, reply_eq, Output.shown_of_takes h, Reply.ending?]

/-- A line is read and the reply to it is written. -/
theorem run_of_answered (h : output.takes 0) (hreply : output.takes 1)
    (hline : octets?.bind Text.ofUtf8? = some line.2) :
    run terminal output shell ((line.1, octets?) :: rest) =
      if exits shell line then
        ⟨shell.afterLines [line], prompt terminal shell ++ shown terminal shell line, .exit⟩
      else
        let next := run terminal (output.after 2) (shell.afterLines [line]) rest
        { next with
          output := prompt terminal shell ++ shown terminal shell line ++ next.output } := by
  simp only [run, h, hreply, hline, reply_eq, Output.shown_of_takes h, Output.shown_of_takes hreply,
    Reply.ending?]
  cases exits shell line <;> rfl

/-! ## Texts that are all written -/

theorem readable_cons (h : octets?.bind Text.ofUtf8? = some line.2)
    (rest : List (Stamp × Option (List UInt8))) :
    readable ((line.1, octets?) :: rest) = line :: readable rest := by
  rw [readable, h]

/-- Nothing is left that can be read. -/
theorem Trace.stop {ending : Ending} (hreadable : readable entered = []) (hending : ending ≠ .exit)
    (hfailure : ending = .failure ↔ ∃ line ∈ entered, line.2.bind Text.ofUtf8? = none) :
    Trace terminal shell entered [] ⟨shell, prompt terminal shell, ending⟩ where
  read_prefix := List.nil_prefix
  stays before line after hread := by simp at hread
  exit_iff := by simp [hending]
  read_all _ := hreadable.symm
  failure_iff := by simp [hending, hfailure]
  shell_eq := rfl
  output_eq := by simp [hending]

/-- The line asks to leave. -/
theorem Trace.exit (hline : octets?.bind Text.ofUtf8? = some line.2) (hexit : exits shell line)
    (rest : List (Stamp × Option (List UInt8))) :
    Trace terminal shell ((line.1, octets?) :: rest) [line]
      ⟨shell.afterLines [line], prompt terminal shell ++ shown terminal shell line, .exit⟩ where
  read_prefix := by simp [readable_cons hline]
  stays before other after hread _ := by
    cases before with
    | nil => cases hread; rfl
    | cons => simp at hread
  exit_iff := iff_of_true rfl ⟨[], line, rfl, hexit⟩
  read_all h := absurd rfl h
  failure_iff := by simp
  shell_eq := rfl
  output_eq := by simp [shownFor_cons]

/-- The line is read, and another one after it. -/
theorem Trace.cons {read : List (Stamp × String)} {transcript : Transcript}
    (hline : octets?.bind Text.ofUtf8? = some line.2)
    (hstay : exits shell line = false)
    (h : Trace terminal (shell.afterLines [line]) rest read transcript) :
    Trace terminal shell ((line.1, octets?) :: rest) (line :: read)
      { transcript with
        output := prompt terminal shell ++ shown terminal shell line ++ transcript.output } where
  read_prefix := by
    rw [readable_cons hline]
    exact List.cons_prefix_cons.2 ⟨rfl, h.read_prefix⟩
  stays before other after hread hexit := by
    cases before with
    | nil =>
      cases hread
      exact absurd hexit (by simpa using hstay)
    | cons first before =>
      cases hread
      rw [afterLines_cons] at hexit
      exact h.stays before other after rfl hexit
  exit_iff := by
    rw [h.exit_iff]
    constructor
    · rintro ⟨before, last, rfl, hexit⟩
      rw [← afterLines_cons] at hexit
      exact ⟨line :: before, last, rfl, hexit⟩
    · rintro ⟨before, last, hread, hexit⟩
      cases before with
      | nil =>
        cases hread
        exact absurd hexit (by simpa using hstay)
      | cons first before =>
        cases hread
        rw [afterLines_cons] at hexit
        exact ⟨before, last, rfl, hexit⟩
  read_all hending := by rw [readable_cons hline, ← h.read_all hending]
  failure_iff := by
    rw [h.failure_iff, List.exists_mem_cons_iff]
    simp only [hline, reduceCtorEq, false_or]
  shell_eq := by rw [h.shell_eq, ← afterLines_cons]
  output_eq := by
    simp only [shownFor_cons, h.output_eq, String.append_assoc]

/-! ## Texts that cannot be written -/

/-- Nothing is left that can be read. -/
theorem Withstands.stop {ending : Ending} (hending : ending ≠ .exit)
    (hrun : ∀ output : Output, output.takes 0 →
      run terminal output shell entered = ⟨shell, prompt terminal shell, ending⟩) :
    Withstands terminal shell entered [] ⟨shell, prompt terminal shell, ending⟩ where
  same output htakes := hrun output (htakes 0 (by simp [texts, hending]))
  broken output i hi _ hrefused := by
    obtain rfl : i = 0 := by simpa [texts, hending] using hi
    rw [run_of_refused hrefused]
    exact ⟨rfl, rfl, output.shown_prefix 0 _⟩

/-- The prompt before the first line or the reply to it cannot be written. -/
theorem broken_at_first (hline : octets?.bind Text.ofUtf8? = some line.2) {i : Nat} (hi : i < 2)
    (htakes : ∀ j < i, output.takes j) (hrefused : ¬output.takes i)
    (read : List (Stamp × String)) (more : String) :
    let transcript := run terminal output shell ((line.1, octets?) :: rest)
    transcript.ending = .failure ∧
      transcript.shell = shell.afterLines ((line :: read).take ((i + 1) / 2)) ∧
      transcript.output.toList <+:
        (prompt terminal shell ++ shown terminal shell line ++ more).toList := by
  simp only [String.toList_append, List.append_assoc]
  obtain rfl | rfl : i = 0 ∨ i = 1 := by omega
  · rw [run_of_refused hrefused]
    exact ⟨rfl, rfl, (output.shown_prefix 0 _).trans (List.prefix_append ..)⟩
  · rw [run_of_unanswered (htakes 0 Nat.one_pos) hrefused hline, String.toList_append]
    refine ⟨rfl, rfl, (List.prefix_append_right_inj _).2 ?_⟩
    exact (output.shown_prefix 1 _).trans (List.prefix_append ..)

/-- The line asks to leave. -/
theorem Withstands.exit (hline : octets?.bind Text.ofUtf8? = some line.2)
    (hexit : exits shell line) :
    Withstands terminal shell ((line.1, octets?) :: rest) [line]
      ⟨shell.afterLines [line], prompt terminal shell ++ shown terminal shell line, .exit⟩ where
  same output htakes := by
    rw [run_of_answered (htakes 0 (by simp [texts])) (htakes 1 (by simp [texts])) hline,
      if_pos hexit]
  broken output i hi htakes hrefused := by
    have hshown : prompt terminal shell ++ shown terminal shell line =
        prompt terminal shell ++ shown terminal shell line ++ "" := String.append_empty.symm
    rw [hshown]
    exact broken_at_first hline (by simpa [texts] using hi) htakes hrefused [] ""

/-- The line is read, and another one after it. -/
theorem Withstands.cons {read : List (Stamp × String)} {transcript : Transcript}
    (hline : octets?.bind Text.ofUtf8? = some line.2) (hstay : ¬exits shell line)
    (h : Withstands terminal (shell.afterLines [line]) rest read transcript) :
    Withstands terminal shell ((line.1, octets?) :: rest) (line :: read)
      { transcript with
        output := prompt terminal shell ++ shown terminal shell line ++ transcript.output } where
  same output htakes := by
    have hmore : texts (line :: read) transcript.ending = 2 + texts read transcript.ending := by
      simp only [texts, List.length_cons]
      omega
    rw [hmore] at htakes
    rw [run_of_answered (htakes 0 (by omega)) (htakes 1 (by omega)) hline, if_neg hstay,
      h.same (output.after 2) fun i hi => htakes (2 + i) (by omega)]
  broken output i hi htakes hrefused := by
    by_cases hfirst : i < 2
    · exact broken_at_first hline hfirst htakes hrefused read transcript.output
    · obtain ⟨i, rfl⟩ := Nat.exists_eq_add_of_le (Nat.le_of_not_lt hfirst)
      have hmore : i < texts read transcript.ending := by
        simp only [texts, List.length_cons] at hi ⊢
        omega
      obtain ⟨hending, hshell, hshown⟩ := h.broken (output.after 2) i hmore
        (fun j hj => htakes (2 + j) (by omega)) hrefused
      have hhalf : (2 + i + 1) / 2 = (i + 1) / 2 + 1 := by omega
      rw [run_of_answered (htakes 0 (by omega)) (htakes 1 (by omega)) hline, if_neg hstay, hhalf,
        List.take_succ_cons]
      refine ⟨hending, hshell.trans (afterLines_cons line _).symm, ?_⟩
      simp only [String.toList_append]
      exact (List.prefix_append_right_inj _).2 hshown

/-! ## All lines -/

/-- Reading lines one after another leaves a trace, whatever they are, which is cut off where a text
cannot be written. -/
theorem exists_trace (terminal : Terminal) (shell : Shell)
    (entered : List (Stamp × Option (List UInt8))) :
    ∃ read, Trace terminal shell entered read (run terminal .reliable shell entered) ∧
      Withstands terminal shell entered read (run terminal .reliable shell entered) := by
  induction entered generalizing shell with
  | nil =>
    rw [run_nil rfl]
    exact ⟨[], .stop rfl (by decide) (by simp), .stop (by decide) fun _ => run_nil⟩
  | cons first rest ih =>
    obtain ⟨now, octets?⟩ := first
    cases hline : octets?.bind Text.ofUtf8? with
    | none =>
      rw [run_of_unreadable rfl hline]
      exact ⟨[], .stop (by simp [readable, hline]) (by decide)
        (iff_of_true rfl ⟨_, List.mem_cons_self, hline⟩),
        .stop (by decide) fun _ htakes => run_of_unreadable htakes hline⟩
    | some line =>
      have hread : octets?.bind Text.ofUtf8? = some ((now, line) : Stamp × String).2 := hline
      rw [run_of_answered rfl rfl hread]
      by_cases hexit : exits shell (now, line)
      · rw [if_pos hexit]
        exact ⟨[(now, line)], .exit hline hexit rest, .exit hline hexit⟩
      · rw [if_neg hexit]
        obtain ⟨read, htrace, hwithstands⟩ := ih (shell.afterLines [(now, line)])
        exact ⟨(now, line) :: read, htrace.cons hline (by simpa using hexit),
          hwithstands.cons hline hexit⟩

/-- The law of the loop, for every shell and all octets, whatever the clock shows at each line, when
all texts can be written: the lines are those that the octets are split into, and what becomes of
them is told by those that are read. -/
theorem trace_run (terminal : Terminal) (shell : Shell) (clock : Nat → Stamp)
    (octets : List UInt8) :
    (∀ parts, Splits octets parts ↔ parts = lines octets) ∧
      ∃ read, Trace terminal shell (timed clock (lines octets)) read
        (run terminal .reliable shell (timed clock (lines octets))) := by
  obtain ⟨read, htrace, -⟩ := exists_trace terminal shell (timed clock (lines octets))
  exact ⟨fun _ => splits_iff, read, htrace⟩

end Repl

end PocketShell
