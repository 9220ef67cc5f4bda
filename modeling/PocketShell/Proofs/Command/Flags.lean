import PocketShell.Proofs.Command.Invocation

/-!
# Flags on a line

Which flags a line sets can be said of its words alone: a word with one dash sets a flag for each of
its characters, one with two dashes sets the flag that it names in full. That the words behind
options are first taken as their values, and put back afterwards, makes no difference.
-/

namespace PocketShell.Command

open OptionWord (isOption ofWord)

variable {specs : List FlagSpec} {name word long : String} {first : Char} {rest : List Char}

/-! ## Words with dashes -/

/-- The first of the flags with the short name. -/
def FirstShort (specs : List FlagSpec) (short : Char) (spec : FlagSpec) : Prop :=
  ∃ before after, specs = before ++ spec :: after ∧ spec.short = short ∧
    ∀ other ∈ before, other.short ≠ short

/-- The word is made of flags: it is the long name of one behind two dashes, or short names, at
least one, behind one dash. -/
inductive Admitted (specs : List FlagSpec) (word : String) : Prop
  | long {spec : FlagSpec} (hword : word = "--" ++ spec.long) (hspec : spec ∈ specs)
  | short {first : Char} {rest : List Char} (hword : word = String.ofList ('-' :: first :: rest))
    (hfirst : first ≠ '-') (hall : ∀ c ∈ first :: rest, ∃ spec ∈ specs, spec.short = c)

/-- The word sets the flag of the long name: it names it in full behind two dashes, or one of the
characters behind one dash is its short name and that of no flag before it. -/
inductive Spells (specs : List FlagSpec) (word long : String) : Prop
  | long {spec : FlagSpec} (hword : word = "--" ++ spec.long) (hspec : spec ∈ specs)
    (hlong : spec.long = long)
  | short {first : Char} {rest : List Char} {c : Char} {spec : FlagSpec}
    (hword : word = String.ofList ('-' :: first :: rest)) (hfirst : first ≠ '-')
    (hmem : c ∈ first :: rest) (hspec : FirstShort specs c spec) (hlong : spec.long = long)

theorem toList_dashes (name : String) : ("--" ++ name).toList = '-' :: '-' :: name.toList := by
  rw [String.toList_append]
  rfl

theorem dashes_ne_short (hfirst : first ≠ '-') (name : String) (rest : List Char) :
    "--" ++ name ≠ String.ofList ('-' :: first :: rest) := by
  intro heq
  have hlist := congrArg String.toList heq
  rw [toList_dashes, String.toList_ofList] at hlist
  exact hfirst (List.cons.inj (List.cons.inj hlist).2).1.symm

theorem admitted_long_iff : Admitted specs ("--" ++ name) ↔ ∃ spec ∈ specs, spec.long = name := by
  constructor
  · rintro (⟨hword, hspec⟩ | ⟨hword, hfirst, -⟩)
    · exact ⟨_, hspec, (String.append_right_inj "--").1 hword.symm⟩
    · exact absurd hword (dashes_ne_short hfirst _ _)
  · rintro ⟨spec, hspec, rfl⟩
    exact .long rfl hspec

theorem spells_long_iff :
    Spells specs ("--" ++ name) long ↔ long = name ∧ ∃ spec ∈ specs, spec.long = name := by
  constructor
  · rintro (⟨hword, hspec, hlong⟩ | ⟨hword, hfirst, -, -, -⟩)
    · have hname := (String.append_right_inj "--").1 hword
      exact ⟨hlong.symm.trans hname.symm, _, hspec, hname.symm⟩
    · exact absurd hword (dashes_ne_short hfirst _ _)
  · rintro ⟨rfl, spec, hspec, hlong⟩
    exact .long (by rw [hlong]) hspec hlong

theorem not_admitted_dash : ¬Admitted specs "-" := by
  rintro (⟨hword, -⟩ | ⟨hword, -, -⟩)
  · have hlist := congrArg String.toList hword
    rw [toList_dashes] at hlist
    cases hlist
  · cases String.ofList_injective (show String.ofList ['-'] = _ from hword)

theorem admitted_short_iff (hfirst : first ≠ '-') :
    Admitted specs (String.ofList ('-' :: first :: rest)) ↔
      ∀ c ∈ first :: rest, ∃ spec ∈ specs, spec.short = c := by
  constructor
  · rintro (⟨hword, -⟩ | ⟨hword, -, hall⟩)
    · exact absurd hword.symm (dashes_ne_short hfirst _ _)
    · cases String.ofList_injective hword
      exact hall
  · exact fun hall => .short rfl hfirst hall

theorem spells_short_iff (hfirst : first ≠ '-') :
    Spells specs (String.ofList ('-' :: first :: rest)) long ↔
      ∃ c ∈ first :: rest, ∃ spec, FirstShort specs c spec ∧ spec.long = long := by
  constructor
  · rintro (⟨hword, -, -⟩ | ⟨hword, -, hmem, hspec, hlong⟩)
    · exact absurd hword.symm (dashes_ne_short hfirst _ _)
    · cases String.ofList_injective hword
      exact ⟨_, hmem, _, hspec, hlong⟩
  · rintro ⟨c, hmem, spec, hspec, hlong⟩
    exact .short rfl hfirst hmem hspec hlong

/-! ## How they are read -/

theorem longNameOf?_eq_some_iff {short : Char} :
    longNameOf? specs short = some long ↔
      ∃ spec, FirstShort specs short spec ∧ spec.long = long := by
  rw [longNameOf?, Option.map_eq_some_iff]
  refine exists_congr fun spec => and_congr_left fun _ => ?_
  rw [List.find?_eq_some_iff_append, FirstShort, beq_iff_eq]
  constructor
  · rintro ⟨hshort, before, after, hsplit, hbefore⟩
    exact ⟨before, after, hsplit, hshort, fun other hmem => by simpa using hbefore other hmem⟩
  · rintro ⟨before, after, hsplit, hshort, hbefore⟩
    exact ⟨hshort, before, after, hsplit, fun other hmem => by simpa using hbefore other hmem⟩

theorem longNameOf?_eq_none_iff {short : Char} :
    longNameOf? specs short = none ↔ ¬∃ spec ∈ specs, spec.short = short := by
  simp [longNameOf?]

/-- A word with dashes has two of them, or it is a dash, or it has one. -/
theorem cases_of_isOption (h : isOption word) :
    (∃ name, word = "--" ++ name ∧ ofWord word none 0 = ⟨name, none, true, 0⟩) ∨
      (word = "-" ∧ ofWord word none 0 = ⟨"", none, false, 0⟩) ∨
      ∃ first rest, first ≠ '-' ∧ word = String.ofList ('-' :: first :: rest) ∧
        ofWord word none 0 = ⟨String.ofList (first :: rest), none, false, 0⟩ := by
  rw [isOption, Text.beginsWith, beq_iff_eq, List.head?_eq_some_iff] at h
  obtain ⟨name, hword⟩ := h
  have hspelt : word = String.ofList ('-' :: name) := by rw [← hword, String.ofList_toList]
  cases name with
  | nil => exact .inr (.inl ⟨hspelt, by rw [ofWord, hword]; rfl⟩)
  | cons first rest =>
    by_cases hfirst : first = '-'
    · subst hfirst
      refine .inl ⟨String.ofList rest, ?_, by rw [ofWord, hword]; rfl⟩
      rw [← String.toList_inj, toList_dashes, String.toList_ofList, hword]
    · refine .inr (.inr ⟨first, rest, hfirst, hspelt, ?_⟩)
      unfold ofWord
      split
      · rename_i hdashes
        rw [hword] at hdashes
        exact absurd (List.cons.inj (List.cons.inj hdashes).2).1 hfirst
      · rename_i hdash
        rw [hword] at hdash
        cases hdash
        rfl
      · rename_i hother
        exact absurd hword (hother _)

namespace Invocation

/-- A word with dashes spells its flags, or it is refused because it is not made of flags. -/
theorem yields_spelledBy (specs : List FlagSpec) (h : isOption word) :
    Yields (fun flags => Admitted specs word ∧ ∀ long, long ∈ flags ↔ Spells specs word long)
      (fun fault => ¬Admitted specs word ∧ fault = .unknownOption word)
      (spelledBy (.flags specs) word) := by
  rw [spelledBy]
  obtain ⟨name, rfl, hword⟩ | ⟨rfl, hword⟩ | ⟨first, rest, hfirst, rfl, hword⟩ :=
    cases_of_isOption h
  · rw [hword, flagsOf?, if_pos rfl]
    cases hfound : specs.find? (·.long == name) with
    | none =>
      refine ⟨?_, rfl⟩
      rw [admitted_long_iff]
      simpa using hfound
    | some spec =>
      have hspec : ∃ spec ∈ specs, spec.long = name :=
        ⟨spec, List.mem_of_find?_eq_some hfound, by simpa using List.find?_some hfound⟩
      have hlong : spec.long = name := by simpa using List.find?_some hfound
      refine ⟨admitted_long_iff.2 hspec, fun long => ?_⟩
      rw [spells_long_iff, and_iff_left hspec, ← hlong]
      exact List.mem_singleton
  · rw [hword]
    exact ⟨not_admitted_dash, rfl⟩
  · rw [hword, flagsOf?, if_neg Bool.false_ne_true]
    simp only [String.toList_ofList, List.isEmpty_cons, Bool.false_eq_true, if_false]
    cases hflags : (first :: rest).mapM (longNameOf? specs) with
    | none =>
      obtain ⟨c, hmem, hnone⟩ := mapM_eq_none_iff.1 hflags
      refine ⟨fun hadmitted => ?_, rfl⟩
      exact longNameOf?_eq_none_iff.1 hnone ((admitted_short_iff hfirst).1 hadmitted c hmem)
    | some flags =>
      refine ⟨(admitted_short_iff hfirst).2 fun c hmem => ?_, fun long => ?_⟩
      · by_contra hnone
        have hfails := mapM_eq_none_iff.2 ⟨c, hmem, longNameOf?_eq_none_iff.2 hnone⟩
        rw [hflags] at hfails
        cases hfails
      · rw [spells_short_iff hfirst, mem_iff_of_mapM hflags]
        simp only [longNameOf?_eq_some_iff]

/-! ## Flags among the words of a line -/

/-- All words with dashes are made of flags, and the flags are those that they set. -/
structure Sets (specs : List FlagSpec) (words flags : List String) : Prop where
  admitted : ∀ word ∈ words, isOption word → Admitted specs word
  mem_iff : ∀ long, long ∈ flags ↔ ∃ word ∈ words, isOption word ∧ Spells specs word long

/-- The fault names the first of the words with dashes that is not made of flags. -/
def Blames (specs : List FlagSpec) (words : List String) (fault : Fault) : Prop :=
  ∃ before word after, words = before ++ word :: after ∧
    (∀ earlier ∈ before, isOption earlier → Admitted specs earlier) ∧
    isOption word ∧ ¬Admitted specs word ∧ fault = .unknownOption word

variable {words flags : List String} {fault : Fault}

theorem Sets.argument (hword : isOption word = false) (h : Sets specs words flags) :
    Sets specs (word :: words) flags where
  admitted := by simpa [hword] using h.admitted
  mem_iff long := by simp [hword, h.mem_iff]

theorem Sets.option {spelt : List String} (hword : isOption word) (hadmitted : Admitted specs word)
    (hspelt : ∀ long, long ∈ spelt ↔ Spells specs word long) (h : Sets specs words flags) :
    Sets specs (word :: words) (spelt ++ flags) where
  admitted := List.forall_mem_cons.2 ⟨fun _ => hadmitted, h.admitted⟩
  mem_iff long := by simp [hword, hspelt, h.mem_iff]

theorem Blames.cons (hword : isOption word → Admitted specs word) (h : Blames specs words fault) :
    Blames specs (word :: words) fault := by
  obtain ⟨before, offender, after, rfl, hbefore, hoffender⟩ := h
  exact ⟨word :: before, offender, after, rfl, List.forall_mem_cons.2 ⟨hword, hbefore⟩, hoffender⟩

theorem Blames.not_admitted (h : Blames specs words fault) :
    ¬∀ word ∈ words, isOption word → Admitted specs word := by
  obtain ⟨before, offender, after, rfl, -, hoption, hoffender, -⟩ := h
  exact fun hall => hoffender (hall offender (by simp) hoption)

/-- The words spell flags, or the first of them that is to blame is refused. -/
theorem yields_spelled (specs : List FlagSpec) (words : List String) :
    Yields (Sets specs words) (Blames specs words) (spelled (.flags specs) words) := by
  induction words with
  | nil => exact ⟨by simp, by simp⟩
  | cons word rest ih =>
    by_cases hword : isOption word
    · rw [spelled_cons hword]
      have hfirst := yields_spelledBy specs hword
      cases hspelt : spelledBy (.flags specs) word with
      | error fault =>
        rw [hspelt] at hfirst
        exact ⟨[], word, rest, rfl, by simp, hword, hfirst⟩
      | ok spelt =>
        rw [hspelt] at hfirst
        obtain ⟨hadmitted, hmem⟩ := hfirst
        cases hrest : spelled (.flags specs) rest with
        | error fault =>
          rw [hrest] at ih
          exact Blames.cons (fun _ => hadmitted) ih
        | ok flags =>
          rw [hrest] at ih
          exact Sets.option hword hadmitted hmem ih
    · have hargument : isOption word = false := by simpa using hword
      rw [spelled_argument hargument]
      exact ih.mono (fun _ => Sets.argument hargument)
        fun _ => Blames.cons fun hoption => absurd hoption hword

/-- What a command that knows the flags receives when these are the words behind it. -/
structure Receives (specs : List FlagSpec) (words : List String)
    (received : Except Fault Invocation) : Prop where
  accepted_iff : (∃ invocation, received = .ok invocation) ↔
    ∀ word ∈ words, isOption word → Admitted specs word
  /-- The arguments are the words without dashes, wherever they stand. -/
  arguments_eq : ∀ invocation, received = .ok invocation →
    invocation.arguments = words.filter (!isOption ·)
  flag_iff : ∀ invocation, received = .ok invocation → ∀ long,
    invocation.flag long ↔ ∃ word ∈ words, isOption word ∧ Spells specs word long
  refused : (¬∀ word ∈ words, isOption word → Admitted specs word) →
    ∃ fault, received = .error fault ∧ Blames specs words fault

theorem receives_spelled (specs : List FlagSpec) (words : List String) :
    Receives specs words
      ((fun flags => ⟨kept (.flags specs) words, flags⟩) <$> spelled (.flags specs) words) := by
  have hyields := yields_spelled specs words
  cases hspelled : spelled (.flags specs) words with
  | error fault =>
    rw [hspelled] at hyields
    have hnot := Blames.not_admitted hyields
    exact ⟨iff_of_false (by rintro ⟨_, ⟨⟩⟩) hnot, nofun, nofun, fun _ => ⟨fault, rfl, hyields⟩⟩
  | ok flags =>
    rw [hspelled] at hyields
    obtain ⟨hadmitted, hmem⟩ := hyields
    refine ⟨iff_of_true ⟨_, rfl⟩ hadmitted, ?_, ?_, fun hnot => absurd hadmitted hnot⟩
    · rintro _ ⟨⟩
      rfl
    · rintro _ ⟨⟩ long
      rw [flag, List.contains_iff_mem]
      exact hmem long

/-- What a command that knows flags receives from any line, whose words are what it falls into at
its blanks. -/
theorem receives_ofLine (line : String) (specs : List FlagSpec) :
    (∀ words, Text.FallsInto Text.isBlank line.toList words ↔ words = Text.words line) ∧
      Receives specs (Text.words line).tail (ofLine (.parse line) (.flags specs)) := by
  refine ⟨fun words => Text.fallsInto_iff, ?_⟩
  rw [ofLine_eq]
  exact receives_spelled specs (Text.words line).tail

/-- Flags may stand anywhere, and none takes the word behind it. -/
example : ofLine (.parse "rm a -r b --recursive c") (.flags [⟨'r', "recursive"⟩]) =
    .ok ⟨["a", "b", "c"], ["recursive", "recursive"]⟩ := by
  decide +kernel

end Invocation

end PocketShell.Command
