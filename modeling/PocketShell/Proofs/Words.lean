import Mathlib.Data.List.DropRight
import PocketShell.CommandLine

/-!
# Words and line breaks

What a text falls into at its separators can be said without a way to find it: stretches that are as
long as they can be, in order, and nothing else. The words of a line are its stretches without
blanks: no word is empty or has a blank in it, and the blanks around a line are no matter. Every
character at which text is broken into lines is a blank, so no word breaks a line either.
-/

namespace PocketShell.Text

/-! ## Stretches between separators -/

section
variable {p : Char → Bool} {xs ys : List Char}

/-- The non-empty stretches between separators, as characters. -/
def stretches (p : Char → Bool) (xs : List Char) : List (List Char) :=
  (xs.splitOnP p).filter (!·.isEmpty)

theorem fields_eq (text : String) :
    fields p text = (stretches p text.toList).map String.ofList := rfl

theorem stretches_append_cons (xs ys : List Char) {c : Char} (h : p c) :
    stretches p (xs ++ c :: ys) = stretches p xs ++ stretches p ys := by
  rw [stretches, List.splitOnP_append_cons _ _ h, List.filter_append]
  rfl

theorem stretches_cons {c : Char} (h : p c) (xs : List Char) :
    stretches p (c :: xs) = stretches p xs :=
  stretches_append_cons [] xs h

theorem stretches_of_forall (h : ∀ c ∈ xs, p c) : stretches p xs = [] := by
  induction xs with
  | nil => rfl
  | cons c rest ih =>
    obtain ⟨hc, hrest⟩ := List.forall_mem_cons.1 h
    rw [stretches_cons hc, ih hrest]

/-- Separators before the first stretch are no matter. -/
theorem stretches_append_left (h : ∀ c ∈ xs, p c) (ys : List Char) :
    stretches p (xs ++ ys) = stretches p ys := by
  induction xs with
  | nil => rfl
  | cons c rest ih =>
    obtain ⟨hc, hrest⟩ := List.forall_mem_cons.1 h
    rw [List.cons_append, stretches_cons hc, ih hrest]

/-- Separators after the last stretch are no matter. -/
theorem stretches_append_right (xs : List Char) (h : ∀ c ∈ ys, p c) :
    stretches p (xs ++ ys) = stretches p xs := by
  cases ys with
  | nil => rw [List.append_nil]
  | cons c rest =>
    obtain ⟨hc, hrest⟩ := List.forall_mem_cons.1 h
    rw [stretches_append_cons _ _ hc, stretches_of_forall hrest, List.append_nil]

/-- No part of a list that is cut at its separators has one in it. -/
theorem of_mem_splitOnP (xs : List Char) :
    ∀ part ∈ xs.splitOnP p, ∀ c ∈ part, c ∈ xs ∧ p c = false := by
  induction xs with
  | nil =>
    intro part hpart c hc
    obtain rfl := List.mem_singleton.1 hpart
    exact absurd hc List.not_mem_nil
  | cons x rest ih =>
    have hrest : ∀ part ∈ rest.splitOnP p, ∀ c ∈ part, c ∈ x :: rest ∧ p c = false :=
      fun part hpart c hc => (ih part hpart c hc).imp_left (List.mem_cons_of_mem _)
    rw [List.splitOnP_cons_eq_if_modifyHead]
    by_cases hx : p x
    · rw [if_pos hx]
      exact List.forall_mem_cons.2 ⟨fun c hc => absurd hc List.not_mem_nil, hrest⟩
    · rw [if_neg hx]
      cases hparts : rest.splitOnP p with
      | nil => exact fun part hpart => absurd hpart List.not_mem_nil
      | cons first others =>
        rw [hparts] at hrest
        obtain ⟨hfirst, hothers⟩ := List.forall_mem_cons.1 hrest
        refine List.forall_mem_cons.2 ⟨fun c hc => ?_, hothers⟩
        rcases List.mem_cons.1 hc with rfl | hc
        · exact ⟨List.mem_cons_self, by simpa using hx⟩
        · exact hfirst c hc

theorem stretches_eq_nil_iff : stretches p xs = [] ↔ ∀ c ∈ xs, p c := by
  refine ⟨fun h => ?_, stretches_of_forall⟩
  induction xs with
  | nil => exact fun c hc => absurd hc List.not_mem_nil
  | cons x rest ih =>
    by_cases hx : p x
    · rw [stretches_cons hx] at h
      exact List.forall_mem_cons.2 ⟨hx, ih h⟩
    · rw [stretches, List.splitOnP_cons_eq_if_modifyHead, if_neg hx] at h
      cases hparts : rest.splitOnP p with
      | nil => exact absurd hparts (List.splitOnP_ne_nil _ _)
      | cons first others => simp [hparts] at h

theorem stretches_of_forall_not (hne : xs ≠ []) (h : ∀ c ∈ xs, p c = false) :
    stretches p xs = [xs] := by
  rw [stretches, List.splitOnP_eq_singleton h]
  simp [hne]

/-- What stands before the first separator and what stands behind it fall into stretches apart. -/
theorem stretches_takeWhile (xs : List Char) :
    stretches p xs = stretches p (xs.takeWhile (!p ·)) ++
      stretches p (xs.drop ((xs.takeWhile (!p ·)).length + 1)) := by
  have hparts := List.takeWhile_append_dropWhile (p := (!p ·)) (l := xs)
  have hfirst := List.head?_dropWhile_not (!p ·) xs
  generalize xs.takeWhile (!p ·) = part at hparts ⊢
  generalize xs.dropWhile (!p ·) = left at hparts hfirst
  subst hparts
  cases left with
  | nil =>
    rw [List.append_nil, List.drop_eq_nil_of_le (Nat.le_succ _)]
    exact (List.append_nil _).symm
  | cons c rest =>
    have hc : p c := by simpa using hfirst
    have hdrop : (part ++ c :: rest).drop (part.length + 1) = rest := by
      rw [← List.drop_drop, List.drop_left, List.drop_succ_cons, List.drop_zero]
    rw [stretches_append_cons _ _ hc, hdrop]

/-- A field is not empty, and its characters are characters of the text that separate nothing. -/
theorem of_mem_fields {text part : String} (h : part ∈ fields p text) :
    part.toList ≠ [] ∧ ∀ c ∈ part.toList, c ∈ text.toList ∧ p c = false := by
  rw [fields_eq] at h
  obtain ⟨stretch, hstretch, rfl⟩ := List.mem_map.1 h
  obtain ⟨hsplit, hne⟩ := List.mem_filter.1 hstretch
  rw [String.toList_ofList]
  exact ⟨by simpa using hne, of_mem_splitOnP _ stretch hsplit⟩

/-! ## What a text falls into -/

/-- The characters fall into the parts: each part is a stretch without separators that goes on for
as long as it can, and before, between and behind the parts there are only separators. -/
inductive FallsInto (p : Char → Bool) : List Char → List String → Prop
  | nil {gap : List Char} (hgap : ∀ c ∈ gap, p c) : FallsInto p gap []
  | cons {gap part rest : List Char} {parts : List String} (hgap : ∀ c ∈ gap, p c)
    (hne : part ≠ []) (hpart : ∀ c ∈ part, p c = false) (hend : ∀ c ∈ rest.head?, p c)
    (hrest : FallsInto p rest parts) :
    FallsInto p (gap ++ (part ++ rest)) (String.ofList part :: parts)

namespace FallsInto

variable {parts : List String}

theorem eq_stretches (h : FallsInto p xs parts) :
    parts = (stretches p xs).map String.ofList := by
  induction h with
  | nil hgap => rw [stretches_of_forall hgap, List.map_nil]
  | @cons gap part rest parts hgap hne hpart hend hrest ih =>
    have hfirst : stretches p (part ++ rest) = part :: stretches p rest := by
      cases rest with
      | nil =>
        rw [List.append_nil, stretches_of_forall_not hne hpart]
        rfl
      | cons c rest =>
        have hc : p c := hend c rfl
        rw [stretches_append_cons _ _ hc, stretches_of_forall_not hne hpart, stretches_cons hc]
        rfl
    rw [stretches_append_left hgap, hfirst, List.map_cons, ih]

/-- A separator more in front is no matter. -/
theorem separator {c : Char} (hc : p c) (h : FallsInto p xs parts) :
    FallsInto p (c :: xs) parts := by
  cases h with
  | nil hgap => exact .nil (List.forall_mem_cons.2 ⟨hc, hgap⟩)
  | cons hgap hne hpart hend hrest =>
    exact .cons (List.forall_mem_cons.2 ⟨hc, hgap⟩) hne hpart hend hrest

/-- Any other character in front begins a part, or it goes to the first part if that stands right
behind it. -/
theorem exists_other {c : Char} (hc : p c = false) (h : FallsInto p xs parts) :
    ∃ parts, FallsInto p (c :: xs) parts := by
  have hsingle : ∀ d ∈ [c], p d = false := List.forall_mem_singleton.2 hc
  have hnew : (∀ d ∈ xs.head?, p d) → ∃ parts, FallsInto p (c :: xs) parts := fun hend =>
    ⟨_, @cons p [] [c] xs _ (by simp) (by simp) hsingle hend h⟩
  cases h with
  | nil hgap => exact hnew fun d hd => hgap d (List.mem_of_mem_head? hd)
  | @cons gap part rest parts hgap hne hpart hend hrest =>
    cases gap with
    | nil =>
      exact ⟨_, @cons p [] (c :: part) rest parts (by simp) (by simp)
        (List.forall_mem_cons.2 ⟨hc, hpart⟩) hend hrest⟩
    | cons d gap =>
      refine hnew fun first hfirst => ?_
      obtain rfl : d = first := by simpa using hfirst
      exact hgap d List.mem_cons_self

end FallsInto

theorem exists_fallsInto (p : Char → Bool) (xs : List Char) : ∃ parts, FallsInto p xs parts := by
  induction xs with
  | nil => exact ⟨[], .nil (by simp)⟩
  | cons c rest ih =>
    obtain ⟨parts, hparts⟩ := ih
    by_cases hc : p c
    · exact ⟨parts, hparts.separator hc⟩
    · exact hparts.exists_other (by simpa using hc)

/-- What a text falls into are its fields, and nothing else. -/
theorem fallsInto_iff {text : String} {parts : List String} :
    FallsInto p text.toList parts ↔ parts = fields p text := by
  refine ⟨fun h => h.eq_stretches, ?_⟩
  rintro rfl
  obtain ⟨parts, hparts⟩ := exists_fallsInto p text.toList
  rw [fields_eq, ← hparts.eq_stretches]
  exact hparts

end

/-! ## The words of a line -/

variable {line word : String}

theorem words_eq_nil_iff : words line = [] ↔ ∀ c ∈ line.toList, isBlank c := by
  rw [words, fields_eq, List.map_eq_nil_iff, stretches_eq_nil_iff]

/-- What stands behind a space falls into words by itself. -/
theorem words_append_space (first second : String) :
    words (first ++ " " ++ second) = words first ++ words second := by
  have hlist : (first ++ " " ++ second).toList = first.toList ++ ' ' :: second.toList := by
    rw [String.toList_append, String.toList_append, List.append_assoc]
    rfl
  have hblank : isBlank ' ' := by decide
  rw [words, words, words, fields_eq, fields_eq, fields_eq, hlist,
    stretches_append_cons _ _ hblank, List.map_append]

/-- Text without blanks is its own only word. -/
theorem words_of_forall_not (hne : word ≠ "") (h : ∀ c ∈ word.toList, isBlank c = false) :
    words word = [word] := by
  rw [words, fields_eq, stretches_of_forall_not (mt String.toList_eq_nil_iff.1 hne) h,
    List.map_singleton, String.ofList_toList]

/-- A word is not empty, and its characters are characters of the line that are no blanks. -/
theorem of_mem_words (h : word ∈ words line) :
    word.toList ≠ [] ∧ ∀ c ∈ word.toList, c ∈ line.toList ∧ isBlank c = false :=
  of_mem_fields h

/-- The text between the blanks at its two ends. -/
theorem exists_toList_eq_trim (line : String) : ∃ before after,
    line.toList = before ++ (trim line).toList ++ after ∧ (∀ c ∈ before, isBlank c) ∧
      ∀ c ∈ after, isBlank c := by
  refine ⟨line.toList.takeWhile isBlank, (line.toList.dropWhile isBlank).rtakeWhile isBlank, ?_,
    fun c hc => List.mem_takeWhile_imp hc, fun c hc => List.mem_rtakeWhile_imp hc⟩
  have htrim : (trim line).toList = (line.toList.dropWhile isBlank).rdropWhile isBlank :=
    String.toList_ofList
  rw [htrim, List.append_assoc, List.rdropWhile_append_rtakeWhile,
    List.takeWhile_append_dropWhile]

theorem words_trim (line : String) : words (trim line) = words line := by
  obtain ⟨before, after, hline, hbefore, hafter⟩ := exists_toList_eq_trim line
  rw [words, words, fields_eq, fields_eq, hline, stretches_append_right _ hafter,
    stretches_append_left hbefore]

theorem trim_isEmpty_iff : (trim line).isEmpty ↔ ∀ c ∈ line.toList, isBlank c := by
  constructor
  · intro hempty
    rw [← words_eq_nil_iff, ← words_trim, String.isEmpty_iff.1 hempty]
    rfl
  · intro hblank
    have hdrop : line.toList.dropWhile isBlank = [] := List.dropWhile_eq_nil_iff.2 hblank
    rw [trim, hdrop]
    rfl

theorem trim_not_isEmpty_of_words {first : String} {rest : List String}
    (h : words line = first :: rest) : ¬(trim line).isEmpty := by
  rw [trim_isEmpty_iff, ← words_eq_nil_iff, h]
  exact List.cons_ne_nil first rest

/-! ## Line breaks -/

/-- Whether a text is broken into lines at the character. -/
def isLineBreak (c : Char) : Bool :=
  let n := c.toNat
  (0x0A ≤ n && n ≤ 0x0D) || n == 0x85 || n == 0x2028 || n == 0x2029

/-- Each line break of the text is one of the other text: where that has none, this has none. -/
def BreaksAs (other text : String) : Prop :=
  ∀ c, isLineBreak c → c ∉ other.toList → c ∉ text.toList

section
variable {other : String}

theorem breaksAs_self (text : String) : BreaksAs text text := fun _ _ h => h

theorem breaksAs_of_forall {text : String} (h : ∀ c ∈ text.toList, isLineBreak c = false) :
    BreaksAs other text := by
  intro c hbreak _ hc
  rw [h c hc] at hbreak
  cases hbreak

/-- So a text that is written out is checked by its characters. -/
theorem breaksAs_ofList {cs : List Char} (h : cs.all (!isLineBreak ·)) :
    BreaksAs other (String.ofList cs) := by
  refine breaksAs_of_forall ?_
  rw [String.toList_ofList]
  simpa using h

theorem breaksAs_append {first second : String} :
    BreaksAs other (first ++ second) ↔ BreaksAs other first ∧ BreaksAs other second := by
  simp only [BreaksAs, String.toList_append, List.mem_append, not_or, forall_and]

theorem isBlank_of_isLineBreak {c : Char} (h : isLineBreak c) : isBlank c := by
  simp only [isLineBreak, isBlank, Bool.or_eq_true, Bool.and_eq_true, decide_eq_true_eq,
    beq_iff_eq] at h ⊢
  omega

theorem breaksAs_of_mem_words (h : word ∈ words line) : BreaksAs other word := by
  refine breaksAs_of_forall fun c hc => Bool.eq_false_iff.2 fun hbreak => ?_
  have hblank := isBlank_of_isLineBreak hbreak
  rw [((of_mem_words h).2 c hc).2] at hblank
  cases hblank

theorem not_isLineBreak_of_isDigit {c : Char} (h : c.isDigit) : isLineBreak c = false := by
  have hrange : 48 ≤ c.toNat ∧ c.toNat ≤ 57 := Char.isDigit_iff_toNat.1 h
  simp only [isLineBreak, Bool.or_eq_false_iff, Bool.and_eq_false_iff, decide_eq_false_iff_not,
    beq_eq_false_iff_ne]
  omega

end

end PocketShell.Text
