import PocketShell.Repl

/-!
# The lines of some octets

What the lines of an input are, said without a way to find them, and that they are the ones found.
-/

namespace PocketShell.Repl

/-- The octets are split into the lines: a line feed ends a line, a carriage return right before it
does not belong to the line, and what follows the last line feed is a line unless it is empty. -/
inductive Splits : List UInt8 → List (List UInt8) → Prop
  | nil : Splits [] []
  | last {line : List UInt8} : line ≠ [] → 10 ∉ line → Splits line [line]
  | feed {line rest : List UInt8} {lines : List (List UInt8)} :
    10 ∉ line → line.getLast? ≠ some 13 → Splits rest lines →
      Splits (line ++ 10 :: rest) (line :: lines)
  | returnFeed {line rest : List UInt8} {lines : List (List UInt8)} :
    10 ∉ line → Splits rest lines → Splits (line ++ 13 :: 10 :: rest) (line :: lines)

variable {line : List UInt8}

theorem lines_of_not_mem (h : 10 ∉ line) : lines line = if line.isEmpty then [] else [line] := by
  rw [lines, endedLines, List.splitOn_eq_singleton h]
  rfl

/-- The first line feed ends the first line. -/
theorem lines_append_feed (h : 10 ∉ line) (rest : List UInt8) :
    lines (line ++ 10 :: rest) = dropReturn line :: lines rest := by
  have hsplit : (line ++ 10 :: rest).splitOn 10 = line :: rest.splitOn 10 :=
    List.splitOnP_append_cons_of_forall_mem
      (fun octet hmem => beq_false_of_ne (ne_of_mem_of_not_mem hmem h)) 10 (beq_self_eq_true _) rest
  rw [lines, lines, endedLines, endedLines, hsplit]
  cases hparts : rest.splitOn 10 with
  | nil => exact absurd hparts (List.splitOn_ne_nil 10 rest)
  | cons first others => rfl

theorem dropReturn_of_ne (h : line.getLast? ≠ some 13) : dropReturn line = line :=
  if_neg h

theorem dropReturn_append (line : List UInt8) : dropReturn (line ++ [13]) = line := by
  simp [dropReturn]

theorem splits_lines (octets : List UInt8) : Splits octets (lines octets) := by
  by_cases hfeed : 10 ∈ octets
  · obtain ⟨line, rest, rfl, hline⟩ := List.eq_append_cons_of_mem hfeed
    have hrest := splits_lines rest
    rw [lines_append_feed hline]
    by_cases hreturn : line.getLast? = some 13
    · obtain ⟨kept, rfl⟩ := List.getLast?_eq_some_iff.1 hreturn
      have hkept : 10 ∉ kept := fun hmem => hline (List.mem_append_left _ hmem)
      rw [dropReturn_append, List.append_assoc]
      exact .returnFeed hkept hrest
    · rw [dropReturn_of_ne hreturn]
      exact .feed hline hreturn hrest
  · rw [lines_of_not_mem hfeed]
    split
    · rename_i hempty
      rw [List.isEmpty_iff.1 hempty]
      exact .nil
    · rename_i hsome
      exact .last (fun heq => hsome (List.isEmpty_iff.2 heq)) hfeed
termination_by octets.length

/-- There is one way to split some octets, and it is how lines are found. -/
theorem splits_iff {octets : List UInt8} {parts : List (List UInt8)} :
    Splits octets parts ↔ parts = lines octets := by
  refine ⟨fun h => ?_, fun h => h ▸ splits_lines octets⟩
  induction h with
  | nil => rfl
  | last hsome hline => simp [lines_of_not_mem hline, hsome]
  | feed hline hreturn _ ih => rw [lines_append_feed hline, dropReturn_of_ne hreturn, ih]
  | @returnFeed line rest _ hline _ ih =>
    have hfeed : 10 ∉ line ++ [13] := by simpa using hline
    have hfirst := lines_append_feed hfeed rest
    rw [dropReturn_append, List.append_assoc] at hfirst
    rw [ih]
    exact hfirst.symm

end PocketShell.Repl
