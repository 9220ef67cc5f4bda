import PocketShell.Proofs.Filesystem.Lookup
import PocketShell.Shell.Completion

/-!
# Completion of the last word

The word that is completed is what stands behind the last space, and what stands before it comes
back as it is (`completesBehindSpaces`); no other blank ends a word here, though a line falls into
words at all of them (`not_completes_behind_blanks`). The completion is decided by the names in the
working directory that begin with the word, and what replaces the word leads to the entry it is
taken from (`completes_run`).
-/

namespace PocketShell

/-- A word behind a text is all that stands after the last separator of both together. -/
structure Text.Cut (separator : Char → Bool) (before word : String) : Prop where
  behind : ∀ c ∈ before.toList.getLast?, separator c
  unbroken : ∀ c ∈ word.toList, separator c = false

namespace Completion

open Text (Cut)

variable {before word input line : String} {children : List Node} {names : List String}

/-- The completion with more text in front of the line. -/
def behind (before : String) : Completion → Completion
  | none => none
  | unique line => unique (before ++ line)
  | ambiguous names => ambiguous names

/-- The entries whose names begin with the word, in order. -/
def starting (children : List Node) (word : String) : List Node :=
  children.filter (word.toList <+: ·.name.toList)

theorem mem_starting {node : Node} :
    node ∈ starting children word ↔ node ∈ children ∧ word.toList <+: node.name.toList := by
  simp [starting]

theorem name_prefix_completed (node : Node) : node.name.toList <+: (completed node).toList := by
  rw [completed]
  split <;> simp

/-! ## The cut at the last space -/

theorem toList_lastWord (input : String) :
    (lastWord input).toList = input.toList.rtakeWhile (· != ' ') :=
  String.toList_ofList

theorem toList_head (input : String) : (head input).toList = input.toList.rdropWhile (· != ' ') :=
  String.toList_ofList

theorem head_append_lastWord (input : String) : head input ++ lastWord input = input := by
  rw [← String.toList_inj, String.toList_append, toList_head, toList_lastWord,
    List.rdropWhile_append_rtakeWhile]

/-- Every input is cut into its head and its last word. -/
theorem cut (input : String) : Cut (· == ' ') (head input) (lastWord input) where
  behind := by
    rw [toList_head]
    rcases Path.rdropWhile_cases (· != ' ') input.toList with hnil | ⟨start, last, hlast, hspace⟩
    · simp [hnil]
    · simpa [hlast] using hspace
  unbroken := by
    rw [toList_lastWord]
    intro c hc
    simpa using List.mem_rtakeWhile_imp hc

/-- There is no other way to cut it. -/
theorem lastWord_eq_of_cut (h : Cut (· == ' ') before word) : lastWord (before ++ word) = word := by
  have hword : ∀ c ∈ word.toList.reverse, (c != ' ') = true := by
    intro c hc
    simpa using h.unbroken c (List.mem_reverse.1 hc)
  have hbefore : before.toList.rtakeWhile (· != ' ') = [] := by
    refine (List.rtakeWhile_eq_nil_iff ..).2 fun hne => ?_
    simpa using h.behind _ (List.getLast?_eq_some_getLast hne)
  rw [List.rtakeWhile, List.reverse_eq_nil_iff] at hbefore
  rw [← String.toList_inj, toList_lastWord, String.toList_append, List.rtakeWhile,
    List.reverse_append, List.takeWhile_append_of_pos hword, hbefore, List.append_nil,
    List.reverse_reverse]

theorem head_eq_of_cut (h : Cut (· == ' ') before word) : head (before ++ word) = before := by
  have happend := head_append_lastWord (before ++ word)
  rw [lastWord_eq_of_cut h] at happend
  exact (String.append_left_inj word).1 happend

/-- The cut stands between two characters, as far before the end as the word is long. -/
theorem exists_position (input : String) : ∃ position : input.Pos,
    position.Splits (head input) (lastWord input) ∧
      position.offset.byteIdx = input.utf8ByteSize - (lastWord input).utf8ByteSize := by
  have happend := head_append_lastWord input
  have hvalid : (head input).rawEndPos.IsValid input :=
    String.Pos.Raw.isValid_iff_exists_append.2 ⟨head input, lastWord input, happend.symm, rfl⟩
  refine ⟨⟨(head input).rawEndPos, hvalid⟩, ⟨happend.symm, rfl⟩, ?_⟩
  have hsize := congrArg String.utf8ByteSize happend
  rw [String.utf8ByteSize_append] at hsize
  change (head input).utf8ByteSize = _
  omega

/-! ## The entries that begin with it -/

/-- An input is completed by how many entries begin with its last word. -/
theorem among_cases (children : List Node) (input : String) :
    ((lastWord input = "" ∨ starting children (lastWord input) = []) ∧
      among children input = none) ∨
    (lastWord input ≠ "" ∧ ∃ node, starting children (lastWord input) = [node] ∧
      among children input = unique (head input ++ completed node)) ∨
    (lastWord input ≠ "" ∧ 2 ≤ (starting children (lastWord input)).length ∧
      among children input = ambiguous ((starting children (lastWord input)).map Node.name)) := by
  have hfilter : children.filter (Text.hasPrefix ·.name (lastWord input)) =
      starting children (lastWord input) := by
    refine List.filter_congr fun node _ => ?_
    rw [Text.hasPrefix, Bool.eq_iff_iff, List.isPrefixOf_iff_prefix, decide_eq_true_iff]
  simp only [among, hfilter]
  by_cases hempty : lastWord input = ""
  · exact .inl ⟨.inl hempty, if_pos (String.isEmpty_iff.2 hempty)⟩
  · rw [if_neg (mt String.isEmpty_iff.1 hempty)]
    match starting children (lastWord input) with
    | [] => exact .inl ⟨.inr rfl, rfl⟩
    | [node] => exact .inr (.inl ⟨hempty, node, rfl, rfl⟩)
    | _ :: _ :: _ => exact .inr (.inr ⟨hempty, by simp, rfl⟩)

theorem among_eq_none : among children input = none ↔
    lastWord input = "" ∨ starting children (lastWord input) = [] := by
  rcases among_cases children input with
    ⟨hnone, heq⟩ | ⟨hword, node, hone, heq⟩ | ⟨hword, htwo, heq⟩
  · simp [heq, hnone]
  · simp [heq, hword, hone]
  · have hne : starting children (lastWord input) ≠ [] := fun hnil => by simp [hnil] at htwo
    simp [heq, hword, hne]

theorem among_eq_unique : among children input = unique line ↔
    lastWord input ≠ "" ∧ ∃ node, starting children (lastWord input) = [node] ∧
      line = head input ++ completed node := by
  rcases among_cases children input with
    ⟨hnone, heq⟩ | ⟨hword, node, hone, heq⟩ | ⟨hword, htwo, heq⟩
  · rcases hnone with hempty | hnil
    · simp [heq, hempty]
    · simp [heq, hnil]
  · simp [heq, hword, hone, eq_comm]
  · simp only [heq, reduceCtorEq, false_iff, not_and, not_exists]
    intro _ node hone
    simp [hone] at htwo

theorem among_eq_ambiguous : among children input = ambiguous names ↔
    lastWord input ≠ "" ∧ 2 ≤ (starting children (lastWord input)).length ∧
      names = (starting children (lastWord input)).map Node.name := by
  rcases among_cases children input with
    ⟨hnone, heq⟩ | ⟨hword, node, hone, heq⟩ | ⟨hword, htwo, heq⟩
  · rcases hnone with hempty | hnil
    · simp [heq, hempty]
    · simp [heq, hnil]
  · simp [heq, hone]
  · simp [heq, hword, htwo, eq_comm]

/-- What stands before the last space is no matter for which entries begin with the word. -/
theorem among_append (h : Cut (· == ' ') before word) (children : List Node) :
    among children (before ++ word) = (among children word).behind before := by
  have halone : Cut (· == ' ') "" word := ⟨by simp, h.unbroken⟩
  have hword : lastWord word = word := by simpa using lastWord_eq_of_cut halone
  have hhead : head word = "" := by simpa using head_eq_of_cut halone
  simp only [among, lastWord_eq_of_cut h, head_eq_of_cut h, hword, hhead]
  split
  · rfl
  · split <;> simp [behind]

/-- Where another character than a space stands before the word, it belongs to the word. -/
theorem among_eq_none_of_mem {c : Char} (hc : c ≠ ' ') (hword : ' ' ∉ word.toList)
    (hnames : ∀ node ∈ children, c ∉ node.name.toList) (before : String) :
    among children (before ++ String.singleton c ++ word) = none := by
  have hcut : Cut (· == ' ') (head before) (lastWord before ++ String.singleton c ++ word) := by
    refine ⟨(cut before).behind, fun d hd => ?_⟩
    rw [String.toList_append, String.toList_append, String.toList_singleton, List.mem_append,
      List.mem_append, List.mem_singleton] at hd
    rcases hd with (hd | rfl) | hd
    · exact (cut before).unbroken d hd
    · simpa using hc
    · rw [beq_eq_false_iff_ne]
      rintro rfl
      exact hword hd
  have hinput : before ++ String.singleton c ++ word =
      head before ++ (lastWord before ++ String.singleton c ++ word) := by
    simp only [← String.append_assoc, head_append_lastWord]
  rw [hinput, among_eq_none, lastWord_eq_of_cut hcut]
  refine .inr (List.eq_nil_iff_forall_not_mem.2 fun node hnode => ?_)
  obtain ⟨hchild, hstarts⟩ := mem_starting.1 hnode
  exact hnames node hchild (hstarts.subset (by simp))

end Completion

namespace Filesystem

open Text (Cut)
open Completion (head lastWord starting completed)

variable {fs : Filesystem} {children : List Node}

theorem complete_eq (h : fs.list none = .ok children) (input : String) :
    fs.complete input = Completion.among children input := by
  rw [complete, h]

/-! ## What ends a word -/

/-- The word that is completed reaches back to the last space. -/
structure CompletesBehindSpaces (fs : Filesystem) : Prop where
  /-- What stands before is no matter: it comes back in front of the completion of the word. -/
  behind_space : ∀ before word, Cut (· == ' ') before word →
    fs.complete (before ++ word) = (fs.complete word).behind before
  /-- Any other blank belongs to the word, so nothing is found behind it as long as it stands in no
  name. -/
  behind_other : ∀ before word c, c ≠ ' ' → ' ' ∉ word.toList →
    (∀ children, fs.list none = .ok children → ∀ node ∈ children, c ∉ node.name.toList) →
      fs.complete (before ++ String.singleton c ++ word) = .none

theorem completesBehindSpaces (fs : Filesystem) : CompletesBehindSpaces fs where
  behind_space before word hcut := by
    cases hlist : fs.list none with
    | ok children => rw [complete_eq hlist, complete_eq hlist, Completion.among_append hcut]
    | error fault => simp [complete, hlist, Completion.behind]
  behind_other before word c hc hword hnames := by
    cases hlist : fs.list none with
    | ok children =>
      rw [complete_eq hlist]
      exact Completion.among_eq_none_of_mem hc hword (hnames children hlist) before
    | error fault => simp [complete, hlist]

/-- A guest who types a tab between `cd` and the word gets no completion, though `cd` and the word
are the words of the line. -/
theorem not_completes_behind_blanks :
    ¬∀ (user : String) (clock : Nat → Time.Stamp) (operations : List Operation)
      (before word : String), Path.isName user → Cut Text.isBlank before word →
        ((startAt clock user).run operations).complete (before ++ word) =
          (((startAt clock user).run operations).complete word).behind before := by
  intro h
  have hcut : Cut Text.isBlank "cd\t" "ho" := ⟨by simp [Text.isBlank], by simp [Text.isBlank]⟩
  have htab := h "guest" (fun n => .ofNanoseconds n) [] "cd\t" "ho" (by decide) hcut
  have halone : ((startAt (fun n => .ofNanoseconds n) "guest").run []).complete "ho" =
      .unique "home/" := rfl
  have hnone : ((startAt (fun n => .ofNanoseconds n) "guest").run []).complete ("cd\t" ++ "ho") =
      .none := rfl
  rw [halone, hnone] at htab
  cases htab

/-! ## The entries of the working directory -/

/-- What the completion of an input comes to where the working directory has the given children. -/
structure Completes (fs : Filesystem) (children : List Node) (input : String) : Prop where
  listed : fs.list none = .ok children
  /-- The word is what stands behind the last space. -/
  cut : Cut (· == ' ') (head input) (lastWord input)
  /-- It is cut off between two characters. -/
  sliced : ∃ position : input.Pos, position.Splits (head input) (lastWord input) ∧
    position.offset.byteIdx = input.utf8ByteSize - (lastWord input).utf8ByteSize
  none_iff : fs.complete input = .none ↔
    lastWord input = "" ∨ ∀ node ∈ children, ¬(lastWord input).toList <+: node.name.toList
  /-- All names are given, in the order of the listing. -/
  ambiguous_iff : ∀ names, fs.complete input = .ambiguous names ↔
    lastWord input ≠ "" ∧ 2 ≤ (starting children (lastWord input)).length ∧
      names = (starting children (lastWord input)).map Node.name
  nodup : ∀ names, fs.complete input = .ambiguous names → names.Nodup
  unique_iff : ∀ line, fs.complete input = .unique line ↔
    lastWord input ≠ "" ∧ ∃ node, starting children (lastWord input) = [node] ∧
      line = head input ++ completed node
  /-- The input goes on. -/
  extended : ∀ line, fs.complete input = .unique line → input.toList <+: line.toList
  /-- What can replace the word is a path of the entry. -/
  directory : ∀ node ∈ children, node.isDirectory →
    completed node = node.name ++ "/" ∧ fs.directory (completed node) = .ok node
  file : ∀ node ∈ children, ¬node.isDirectory →
    completed node = node.name ∧ fs.file (completed node) = .ok node

theorem Holds.directory_completed (h : Holds fs children) {node : Node} (hnode : node ∈ children)
    (hdir : node.isDirectory) : fs.directory (node.name ++ "/") = .ok node := by
  have hname := h.named node hnode
  obtain ⟨hne, hslash, -⟩ := Path.isName_iff.1 hname
  refine h.directory_of_segments hnode ?_ ?_ hdir
  · rw [Path.segments_append_slash, Path.segments_of_isName hname]
  · rw [Path.isAbsolute_append (mt String.toList_eq_nil_iff.2 hne),
      Path.not_isAbsolute_of_not_mem hslash]

theorem Holds.completes (h : Holds fs children) (input : String) : Completes fs children input where
  listed := h.list_eq
  cut := Completion.cut input
  sliced := Completion.exists_position input
  none_iff := by
    rw [complete_eq h.list_eq, Completion.among_eq_none, List.eq_nil_iff_forall_not_mem]
    simp only [Completion.mem_starting, not_and]
  ambiguous_iff names := by rw [complete_eq h.list_eq, Completion.among_eq_ambiguous]
  nodup names hambiguous := by
    rw [complete_eq h.list_eq, Completion.among_eq_ambiguous] at hambiguous
    obtain ⟨-, -, rfl⟩ := hambiguous
    exact h.nodup.sublist (List.filter_sublist.map Node.name)
  unique_iff line := by rw [complete_eq h.list_eq, Completion.among_eq_unique]
  extended line hunique := by
    rw [complete_eq h.list_eq, Completion.among_eq_unique] at hunique
    obtain ⟨-, node, hone, rfl⟩ := hunique
    have hmem : node ∈ starting children (lastWord input) := by simp [hone]
    have hword : (lastWord input).toList <+: (completed node).toList :=
      (Completion.mem_starting.1 hmem).2.trans (Completion.name_prefix_completed node)
    have hline : (head input ++ lastWord input).toList <+:
        (head input ++ completed node).toList := by
      rw [String.toList_append, String.toList_append]
      exact (List.prefix_append_right_inj _).2 hword
    rwa [Completion.head_append_lastWord] at hline
  directory node hnode hdir := by
    have hcompleted : completed node = node.name ++ "/" := if_pos hdir
    rw [hcompleted]
    exact ⟨rfl, h.directory_completed hnode hdir⟩
  file node hnode hfile := by
    have hcompleted : completed node = node.name := if_neg hfile
    have hname := h.named node hnode
    rw [hcompleted]
    exact ⟨rfl, h.file_of_segments hnode (Path.segments_of_isName hname)
      (Path.not_isAbsolute_of_isName hname) hfile⟩

/-- In every filesystem that operations can lead to, what is completed are the names in the working
directory. -/
theorem completes_run {user : String} (huser : Path.isName user) (clock : Nat → Time.Stamp)
    (operations : List Operation) :
    ∃ children, ∀ input, Completes ((startAt clock user).run operations) children input := by
  obtain ⟨children, hholds⟩ := (sound_run_startAt huser clock operations).exists_holds
  exact ⟨children, hholds.completes⟩

/-- Two names of a guest's files go on with an accent and with a space. -/
theorem completes_run_guest :
    Path.isName "guest" ∧
      (∃ children, ∀ input, Completes ((startAt (fun n => .ofNanoseconds n) "guest").run
        [.touch (.ofNanoseconds 10) "tmpé", .touch (.ofNanoseconds 11) "tmpé ü"]) children input) ∧
      ((startAt (fun n => .ofNanoseconds n) "guest").run
        [.touch (.ofNanoseconds 10) "tmpé", .touch (.ofNanoseconds 11) "tmpé ü"]).complete
          "cat /tmp tm" = .ambiguous ["tmp", "tmpé", "tmpé ü"] ∧
      ((startAt (fun n => .ofNanoseconds n) "guest").run
        [.touch (.ofNanoseconds 11) "tmpé ü"]).complete "cat tmpé" = .unique "cat tmpé ü" :=
  ⟨by decide, completes_run (by decide) _ _, rfl, rfl⟩

end Filesystem

end PocketShell
