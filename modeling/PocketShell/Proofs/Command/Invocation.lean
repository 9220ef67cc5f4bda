import PocketShell.Command.Invocation
import PocketShell.Proofs.Words
import PocketShell.Proofs.Yields

/-!
# What commands receive from a line

An option remembers how many arguments stand before it. So when the options are applied one after
another, the words that go back among the arguments go to where they stand on the line, and never
to a place that is not there. What a command receives in the end are the words after the first, in
order: all of them if it takes options like any other word, and else those that are no options.
-/

namespace PocketShell

namespace OptionWord

/-- An option is written as the word that it was read from. -/
theorem token_ofWord {word : String} (h : isOption word) (value? : Option String) (position : Nat) :
    (ofWord word value? position).token = word := by
  rw [isOption, Text.beginsWith, beq_iff_eq] at h
  rw [ofWord, ← String.toList_inj]
  split
  · rename_i name hword
    simp [token, hword]
  · rename_i name _ hword
    simp [token, hword]
  · rename_i hshort
    obtain ⟨rest, hword⟩ := List.head?_eq_some_iff.1 h
    exact absurd hword (hshort rest)

@[simp] theorem value?_ofWord (word : String) (value? : Option String) (position : Nat) :
    (ofWord word value? position).value? = value? := by
  unfold ofWord
  split <;> rfl

@[simp] theorem position_ofWord (word : String) (value? : Option String) (position : Nat) :
    (ofWord word value? position).position = position := by
  unfold ofWord
  split <;> rfl

end OptionWord

namespace CommandLine

open OptionWord (isOption)

/-! ## How words fall into arguments and options -/

/-- The words after a command, with `position` arguments before them, fall into arguments and
options: a word that is no option is an argument, unless the option before it takes it. -/
inductive Scanned : Nat → List String → List String → List OptionWord → Prop
  | nil (position : Nat) : Scanned position [] [] []
  | argument {position : Nat} {word : String} {words arguments : List String}
    {options : List OptionWord} (hword : isOption word = false)
    (hrest : Scanned (position + 1) words arguments options) :
    Scanned position (word :: words) (word :: arguments) options
  | option {position : Nat} {word : String} (value? : Option String)
    {words arguments : List String} {options : List OptionWord} (hword : isOption word)
    (hvalue : ∀ value ∈ value?, isOption value = false)
    (hrest : Scanned position words arguments options) :
    Scanned position (word :: (value?.toList ++ words)) arguments
      (.ofWord word value? position :: options)

theorem scanned (position : Nat) (words : List String) :
    Scanned position words (scan position words).1 (scan position words).2 := by
  fun_induction scan position words with
  | case1 position => exact .nil position
  | case2 position word hword => exact .option none hword (by simp) (.nil position)
  | case3 position word hword => exact .argument (by simpa using hword) (.nil _)
  | case4 position word next rest hword hnext arguments options hscan ih =>
    rw [hscan] at ih
    exact .option none hword (by simp) ih
  | case5 position word next rest hword hnext arguments options hscan ih =>
    rw [hscan] at ih
    exact .option (some next) hword (by simpa using hnext) ih
  | case6 position word next rest hword arguments options hscan ih =>
    rw [hscan] at ih
    exact .argument (by simpa using hword) ih

namespace Scanned

variable {position : Nat} {words arguments : List String} {options : List OptionWord}

/-- No option stands behind more arguments than there are. -/
theorem position_le (h : Scanned position words arguments options) :
    ∀ option ∈ options, option.position ≤ position + arguments.length := by
  induction h with
  | nil => exact fun _ hoption => absurd hoption List.not_mem_nil
  | argument hword hrest ih =>
    intro option hoption
    have hle := ih option hoption
    rw [List.length_cons]
    omega
  | option value? hword hvalue hrest ih =>
    refine List.forall_mem_cons.2 ⟨?_, ih⟩
    rw [OptionWord.position_ofWord]
    omega

theorem options_eq_nil_iff (h : Scanned position words arguments options) :
    options = [] ↔ ∀ word ∈ words, isOption word = false := by
  induction h with
  | nil => simp
  | argument hword hrest ih => rw [ih, List.forall_mem_cons, and_iff_right hword]
  | option value? hword hvalue hrest ih => simp [hword]

end Scanned

/-- The words of a line are `name` and others that are no options. -/
structure Bare (name first : String) (rest : List String) : Prop where
  named : first = name
  plain : ∀ word ∈ rest, isOption word = false

/-- The parts of a line whose first word is `command`. -/
theorem parse_eq {line command : String} {words : List String}
    (h : Text.words line = command :: words) :
    parse line = ⟨command, (scan 0 words).1, (scan 0 words).2⟩ := by
  rw [parse, h]

end CommandLine

/-! ## How options are applied -/

namespace Command.Invocation

open CommandLine (Scanned)
open OptionWord (isOption)

variable {policy : OptionPolicy} {position : Nat} {words arguments : List String}
  {options : List OptionWord}

/-- The words that are arguments to a command: not the options, if it knows flags. -/
def kept : OptionPolicy → List String → List String
  | .verbatim, words => words
  | .flags _, words => words.filter (!isOption ·)

/-- The flags that an option spells, or its refusal. -/
def spelledBy : OptionPolicy → String → Except Fault (List String)
  | .verbatim, _ => pure []
  | .flags specs, word =>
    match flagsOf? specs (.ofWord word none 0) with
    | some flags => pure flags
    | none => throw (.unknownOption word)

/-- The flags that the options among some words spell, or the refusal of the first that spells
none. -/
def spelled (policy : OptionPolicy) (words : List String) : Except Fault (List String) :=
  List.flatten <$> (words.filter (isOption ·)).mapM (spelledBy policy)

theorem flagsOf?_ofWord (specs : List FlagSpec) (word : String) (value? : Option String)
    (position : Nat) :
    flagsOf? specs (.ofWord word value? position) = flagsOf? specs (.ofWord word none 0) := by
  unfold OptionWord.ofWord
  split <;> rfl

/-- What goes back among the arguments for an option: the word itself unless it may be a flag, and
the word that was taken as its value. -/
theorem answer_ofWord {word : String} (h : isOption word) (value? : Option String)
    (position : Nat) :
    answer policy (.ofWord word value? position) =
      (fun flags => (kept policy [word] ++ value?.toList, flags)) <$> spelledBy policy word := by
  cases policy with
  | verbatim =>
    rw [answer, OptionWord.token_ofWord h, OptionWord.value?_ofWord]
    rfl
  | flags specs =>
    have hkept : kept (.flags specs) [word] = [] := by simp [kept, h]
    rw [answer, spelledBy, flagsOf?_ofWord, OptionWord.token_ofWord h, OptionWord.value?_ofWord,
      hkept, List.nil_append]
    cases flagsOf? specs (.ofWord word none 0) <;> rfl

theorem mem_of_mem_kept {word : String} (h : word ∈ kept policy words) : word ∈ words := by
  cases policy with
  | verbatim => exact h
  | flags specs => exact (List.mem_filter.1 h).1

theorem kept_nil (policy : OptionPolicy) : kept policy [] = [] := by
  cases policy <;> rfl

theorem kept_argument {word : String} (h : isOption word = false) (words : List String) :
    kept policy (word :: words) = word :: kept policy words := by
  cases policy with
  | verbatim => rfl
  | flags specs => rw [kept, List.filter_cons_of_pos (by simp [h]), kept]

theorem kept_option {value? : Option String} (h : ∀ value ∈ value?, isOption value = false)
    (word : String) (words : List String) :
    kept policy (word :: (value?.toList ++ words)) =
      kept policy [word] ++ value?.toList ++ kept policy words := by
  cases policy with
  | verbatim => rfl
  | flags specs =>
    have hvalue : value?.toList.filter (!isOption ·) = value?.toList :=
      List.filter_eq_self.2 fun value hmem => by simp [h value (Option.mem_toList.1 hmem)]
    rw [kept, kept, kept, ← List.singleton_append, List.filter_append, List.filter_append, hvalue,
      List.append_assoc]

theorem spelled_argument {word : String} (h : isOption word = false) (words : List String) :
    spelled policy (word :: words) = spelled policy words := by
  rw [spelled, List.filter_cons_of_neg (by simp [h]), spelled]

theorem spelled_cons {word : String} (h : isOption word) (words : List String) :
    spelled policy (word :: words) =
      spelledBy policy word >>= fun flags => (flags ++ ·) <$> spelled policy words := by
  rw [spelled, List.filter_cons_of_pos h, List.mapM_cons, spelled]
  cases spelledBy policy word with
  | error fault => rfl
  | ok flags => cases (words.filter (isOption ·)).mapM (spelledBy policy) <;> rfl

theorem spelled_option {word : String} (hword : isOption word) {value? : Option String}
    (hvalue : ∀ value ∈ value?, isOption value = false) (words : List String) :
    spelled policy (word :: (value?.toList ++ words)) =
      spelledBy policy word >>= fun flags => (flags ++ ·) <$> spelled policy words := by
  rw [spelled_cons hword]
  cases value? with
  | none => rfl
  | some value =>
    rw [Option.toList_some, List.singleton_append, spelled_argument (hvalue value rfl)]

theorem of_spelledBy_eq_error {word : String} {fault : Fault}
    (h : spelledBy policy word = .error fault) : fault = .unknownOption word := by
  cases policy with
  | verbatim => cases h
  | flags specs =>
    rw [spelledBy] at h
    split at h
    · cases h
    · exact (Except.error.inj h).symm

/-- Only an option among the words is refused. -/
theorem of_spelled_eq_error {fault : Fault} (h : spelled policy words = .error fault) :
    ∃ word ∈ words, isOption word ∧ fault = .unknownOption word := by
  have hfirst : (words.filter (isOption ·)).mapM (spelledBy policy) = .error fault := by
    rw [spelled] at h
    cases hmap : (words.filter (isOption ·)).mapM (spelledBy policy) with
    | ok flags => rw [hmap] at h; cases h
    | error refusal => rw [hmap] at h; exact congrArg Except.error (Except.error.inj h)
  obtain ⟨word, hmem, hword⟩ := exists_of_mapM_eq_error hfirst
  obtain ⟨hmem, hoption⟩ := List.mem_filter.1 hmem
  exact ⟨word, hmem, hoption, of_spelledBy_eq_error hword⟩

/-- Words that are put in right behind others. -/
theorem splice_length (done arguments others : List String) :
    splice (done ++ arguments) done.length others = done ++ others ++ arguments := by
  rw [splice, List.take_left, List.drop_left]

/-- One option, applied when the words before it are `done`. -/
theorem applyOption_ofWord {word : String} (h : isOption word) (value? : Option String)
    {done : List String} {inserted : Nat} (hdone : done.length = position + inserted)
    (arguments flags : List String) :
    applyOption policy ⟨done ++ arguments, inserted, flags⟩ (.ofWord word value? position) =
      (fun spelt => ⟨done ++ (kept policy [word] ++ value?.toList) ++ arguments,
        inserted + (kept policy [word] ++ value?.toList).length, flags ++ spelt⟩) <$>
        spelledBy policy word := by
  rw [applyOption, answer_ofWord h, OptionWord.position_ofWord, ← hdone]
  cases spelledBy policy word with
  | error fault => rfl
  | ok spelt =>
    rw [← splice_length]
    rfl

/-- The options of a line, applied when the words before them are `done`. -/
theorem foldlM_scanned (policy : OptionPolicy) (h : Scanned position words arguments options)
    {done : List String} {inserted : Nat} (flags : List String)
    (hdone : done.length = position + inserted) :
    (fun progress => Invocation.mk progress.arguments progress.flags) <$>
        options.foldlM (applyOption policy) ⟨done ++ arguments, inserted, flags⟩ =
      (fun more => ⟨done ++ kept policy words, flags ++ more⟩) <$> spelled policy words := by
  induction h generalizing done inserted flags with
  | nil =>
    rw [kept_nil]
    simp [spelled]
  | @argument position word words arguments options hword hrest ih =>
    have hnext : (done ++ [word]).length = position + 1 + inserted := by
      rw [List.length_append, List.length_singleton]
      omega
    have hrest := ih flags hnext
    rw [← List.append_cons, ← List.append_cons] at hrest
    rw [kept_argument hword, spelled_argument hword]
    exact hrest
  | @option position word value? words arguments options hword hvalue hrest ih =>
    rw [List.foldlM_cons, applyOption_ofWord hword value? hdone, spelled_option hword hvalue,
      kept_option hvalue]
    cases spelledBy policy word with
    | error fault => rfl
    | ok spelt =>
      have hnext : (done ++ (kept policy [word] ++ value?.toList)).length =
          position + (inserted + (kept policy [word] ++ value?.toList).length) := by
        rw [List.length_append]
        omega
      refine (ih (flags ++ spelt) hnext).trans ?_
      cases spelled policy words with
      | error fault => rfl
      | ok more =>
        rw [List.append_assoc done]
        exact congrArg (fun all => Except.ok (Invocation.mk _ all))
          (List.append_assoc flags spelt more)

/-- What a command receives from a line: the words after the first, without those that are options
unless it takes them, and the flags that those spell. -/
theorem ofLine_parse {line command : String} {words : List String}
    (h : Text.words line = command :: words) (policy : OptionPolicy) :
    ofLine (.parse line) policy =
      (fun flags => ⟨kept policy words, flags⟩) <$> spelled policy words := by
  have hdone : ([] : List String).length = 0 + 0 := rfl
  rw [CommandLine.parse_eq h, ofLine]
  exact foldlM_scanned policy (CommandLine.scanned 0 words) [] hdone

/-- The same for every line, blank or not: its words after the first are none if it has none. -/
theorem ofLine_eq (line : String) (policy : OptionPolicy) :
    ofLine (.parse line) policy =
      (fun flags => ⟨kept policy (Text.words line).tail, flags⟩) <$>
        spelled policy (Text.words line).tail := by
  cases hwords : Text.words line with
  | nil =>
    rw [CommandLine.parse, hwords, List.tail_nil, kept_nil]
    rfl
  | cons command words => exact ofLine_parse hwords policy

section
variable {line command : String} {policy : OptionPolicy}

/-- A command is given words of the line only. -/
theorem mem_of_ofLine (h : Text.words line = command :: words) {invocation : Invocation}
    (hline : ofLine (.parse line) policy = .ok invocation) :
    ∀ word ∈ invocation.arguments, word ∈ words := by
  rw [ofLine_parse h] at hline
  cases hspelled : spelled policy words with
  | error fault => rw [hspelled] at hline; cases hline
  | ok flags =>
    rw [hspelled] at hline
    cases hline
    exact fun word hword => mem_of_mem_kept hword

/-- A line is refused for an option among its words. -/
theorem exists_of_ofLine_eq_error (h : Text.words line = command :: words) {fault : Fault}
    (hline : ofLine (.parse line) policy = .error fault) :
    ∃ word ∈ words, isOption word ∧ fault = .unknownOption word := by
  rw [ofLine_parse h] at hline
  cases hspelled : spelled policy words with
  | error refusal =>
    rw [hspelled] at hline
    cases hline
    exact of_spelled_eq_error hspelled
  | ok flags => rw [hspelled] at hline; cases hline

end

/-! ## Where words go back -/

/-- While options are applied, every word that goes back among the arguments goes to a place that is
there. -/
inductive InRange (policy : OptionPolicy) : Progress → List OptionWord → Prop
  | nil (progress : Progress) : InRange policy progress []
  | cons {progress : Progress} {option : OptionWord} {rest : List OptionWord}
    (hplace : option.position + progress.inserted ≤ progress.arguments.length)
    (hrest : ∀ next, applyOption policy progress option = .ok next → InRange policy next rest) :
    InRange policy progress (option :: rest)

theorem inRange_of_forall {progress : Progress}
    (h : ∀ option ∈ options, option.position + progress.inserted ≤ progress.arguments.length) :
    InRange policy progress options := by
  induction options generalizing progress with
  | nil => exact .nil progress
  | cons option rest ih =>
    obtain ⟨hoption, hrest⟩ := List.forall_mem_cons.1 h
    refine .cons hoption fun next hnext => ih fun later hlater => ?_
    obtain ⟨⟨words, flags⟩, -, hmade⟩ := bind_eq_ok.1 hnext
    cases hmade
    have hle := hrest later hlater
    simp only [splice, List.length_append, List.length_take, List.length_drop]
    omega

/-- The options of a line put words back only at places that are there. -/
theorem inRange_parse (policy : OptionPolicy) (line : String) :
    InRange policy ⟨(CommandLine.parse line).arguments, 0, []⟩
      (CommandLine.parse line).options := by
  refine inRange_of_forall fun option hoption => ?_
  cases hwords : Text.words line with
  | nil =>
    rw [CommandLine.parse, hwords] at hoption
    exact absurd hoption List.not_mem_nil
  | cons command words =>
    rw [CommandLine.parse_eq hwords] at hoption ⊢
    simpa using (CommandLine.scanned 0 words).position_le option hoption

end Command.Invocation

end PocketShell
