import PocketShell.Json.Reader
import PocketShell.Json.Writer
import PocketShell.Proofs.Digits

/-!
# Values survive being written

A value whose numbers are integers of a word, and which is nested no deeper than the reader goes, is
read back from its text. The reader is given the rest of a text along with the value, so what is
proved of a value says where the reader stops: before a comma or a closing bracket. The fuel it
needs is the length of what it reads.
-/

namespace PocketShell.Json

/-! ## Strings -/

theorem hexWord?_control {n : Nat} (h : n < 0x20) (rest : List Char) :
    hexWord? ('0' :: '0' :: hexDigit (n / 16) :: hexDigit (n % 16) :: rest) = some (n, rest) := by
  have hvalue : ∀ n < 0x20, Text.number? Text.hexDigit? 16
      ['0', '0', hexDigit (n / 16), hexDigit (n % 16)] = some n := by decide
  simp [hexWord?, hvalue n h]

theorem readString?_backslash {c : Char} {cs rest : List Char} (h : unescape? cs = some (c, rest))
    (fuel : Nat) :
    readString? (fuel + 1) ('\\' :: cs) =
      (readString? fuel rest).map fun (text, rest) => (c :: text, rest) := by
  cases hread : readString? fuel rest <;> simp [readString?, h, hread]

theorem unescape?_control {c : Char} (h : c.toNat < 0x20) (rest : List Char) :
    unescape? ('u' :: '0' :: '0' :: hexDigit (c.toNat / 16) :: hexDigit (c.toNat % 16) :: rest) =
      some (c, rest) := by
  have hlow : ¬ (0xD800 ≤ c.toNat ∧ c.toNat < 0xDC00) := by omega
  have hlow' : ¬ (0xDC00 ≤ c.toNat ∧ c.toNat < 0xE000) := by omega
  simp [unescape?, hexWord?_control h, hlow, hlow', Char.ofNat_toNat]

/-- An escaped character is read back as itself. -/
theorem readString?_escape (c : Char) (fuel : Nat) (rest : List Char) :
    readString? (fuel + 1) (escape c ++ rest) =
      (readString? fuel rest).map fun (text, rest) => (c :: text, rest) := by
  unfold escape
  split
  · subst c; exact readString?_backslash rfl fuel
  split
  · subst c; exact readString?_backslash rfl fuel
  split
  · subst c; exact readString?_backslash rfl fuel
  split
  · subst c; exact readString?_backslash rfl fuel
  split
  · subst c; exact readString?_backslash rfl fuel
  split
  · subst c; exact readString?_backslash rfl fuel
  split
  · subst c; exact readString?_backslash rfl fuel
  split
  · rename_i hcontrol
    exact readString?_backslash (unescape?_control hcontrol rest) fuel
  · rename_i hquote hbackslash _ _ _ _ _ hcontrol
    cases hread : readString? fuel rest <;>
      simp [readString?, hquote, hbackslash, hcontrol, hread]

theorem readString?_flatMap {cs : List Char} {fuel : Nat} (h : cs.length < fuel)
    (rest : List Char) :
    readString? fuel (cs.flatMap escape ++ '"' :: rest) = some (cs, rest) := by
  induction cs generalizing fuel with
  | nil =>
    obtain ⟨fuel, rfl⟩ := Nat.exists_eq_succ_of_ne_zero (Nat.ne_of_gt h)
    simp [readString?]
  | cons c cs ih =>
    obtain ⟨fuel, rfl⟩ := Nat.exists_eq_succ_of_ne_zero (Nat.ne_of_gt (Nat.zero_lt_of_lt h))
    rw [List.flatMap_cons, List.append_assoc, readString?_escape, ih (Nat.lt_of_succ_lt_succ h)]
    rfl

theorem length_le_length_flatMap_escape (cs : List Char) :
    cs.length ≤ (cs.flatMap escape).length := by
  induction cs with
  | nil => simp
  | cons c cs ih =>
    have hpos : 0 < (escape c).length := by
      unfold escape
      repeat' split
      all_goals simp
    rw [List.flatMap_cons, List.length_append, List.length_cons]
    omega

/-! ## Integers -/

/-- What can follow a value: nothing, a comma or a closing bracket. -/
def Ends (rest : List Char) : Prop :=
  ∀ c ∈ rest.head?, c = ',' ∨ c = ']' ∨ c = '\x7d'

theorem Ends.noDigit {rest : List Char} (h : Ends rest) : Text.NoDigit rest := by
  intro c hc
  rcases h c hc with rfl | rfl | rfl <;> rfl

theorem Ends.readFraction? {rest : List Char} (h : Ends rest) :
    readFraction? rest = some (none, rest) := by
  unfold Json.readFraction?
  split
  · simp [Ends] at h
  · rfl

theorem Ends.readExponent? {rest : List Char} (h : Ends rest) :
    readExponent? rest = some (none, rest) := by
  cases rest with
  | nil => rfl
  | cons c rest =>
    have hne : ¬ (c = 'e' ∨ c = 'E') := by
      rcases h c rfl with rfl | rfl | rfl <;> decide
    unfold Json.readExponent?
    exact if_neg hne

theorem digitsValue_toDigits (n : Nat) : digitsValue (Nat.toDigits 10 n) = n := by
  have hvalue : ∀ cs, digitsValue cs = Nat.ofDigitChars 10 cs 0 := by
    intro cs
    simp only [digitsValue, Nat.ofDigitChars_eq_foldl, Nat.mul_comm]
  rw [hvalue, Nat.ofDigitChars_ten_toDigits]

theorem isDigit_of_mem_toDigits {n : Nat} {c : Char} (h : c ∈ Nat.toDigits 10 n) : c.isDigit :=
  Nat.isDigit_of_mem_toDigits (by decide) (by decide) h

/-- The digits of a number are a numeral, since only zero begins with a zero. -/
theorem isNumeral_toDigits (n : Nat) :
    ((Nat.toDigits 10 n).isEmpty || ((Nat.toDigits 10 n).length > 1 &&
      (Nat.toDigits 10 n).head? == some '0')) = false := by
  rw [Bool.or_eq_false_iff, Bool.and_eq_false_imp]
  refine ⟨by simp, fun hlong => ?_⟩
  rw [beq_eq_false_iff_ne]
  refine Text.head?_toDigits_ne_zero (Nat.pos_of_ne_zero fun hzero => ?_)
  subst hzero
  exact absurd hlong (by decide)

theorem integerText_of_neg {n : Int} (h : n < 0) :
    integerText n = '-' :: Nat.toDigits 10 n.natAbs := by
  rw [integerText, if_pos h]

/-- An integer that is not negative begins with a digit, not with a sign. -/
theorem integerText_of_nonneg {n : Int} (h : 0 ≤ n) :
    integerText n = Nat.toDigits 10 n.natAbs ∧
      ∃ c cs, integerText n = c :: cs ∧ c.isDigit := by
  rw [integerText, if_neg (Int.not_lt.2 h)]
  obtain ⟨c, cs, hcs⟩ := List.exists_cons_of_ne_nil (@Nat.toDigits_ne_nil n.natAbs 10)
  exact ⟨rfl, c, cs, hcs, isDigit_of_mem_toDigits (n := n.natAbs) (by simp [hcs])⟩

theorem readNumeral?_integerText (n : Int) {rest : List Char} (h : Ends rest) :
    readNumeral? (integerText n ++ rest) =
      some (⟨decide (n < 0), Nat.toDigits 10 n.natAbs, none, none⟩, rest) := by
  have htake := Text.takeWhile_isDigit (fun _ => isDigit_of_mem_toDigits (n := n.natAbs)) h.noDigit
  have hdrop := Text.dropWhile_isDigit (fun _ => isDigit_of_mem_toDigits (n := n.natAbs)) h.noDigit
  unfold readNumeral?
  rcases Int.lt_or_le n 0 with hneg | hpos
  · rw [integerText_of_neg hneg]
    simp [htake, hdrop, isNumeral_toDigits, h.readFraction?, h.readExponent?, hneg]
  · obtain ⟨heq, c, cs, hcs, hdigit⟩ := integerText_of_nonneg hpos
    split
    rename_i negative digits hsign
    split at hsign
    · rename_i more hminus
      rw [hcs] at hminus
      cases hminus
      exact absurd hdigit (by decide)
    · cases hsign
      rw [heq]
      simp [htake, hdrop, isNumeral_toDigits, h.readFraction?, h.readExponent?, hpos]

theorem value?_integer {n : Int} (h : fitsWord n) :
    Numeral.value? ⟨decide (n < 0), Nat.toDigits 10 n.natAbs, none, none⟩ = some (.integer n) := by
  have hinteger : (if decide (n < 0) then -(n.natAbs : Int) else n.natAbs) = n := by
    split
    · rename_i hneg
      have := of_decide_eq_true hneg
      omega
    · rename_i hneg
      have : ¬ n < 0 := fun hlt => hneg (decide_eq_true hlt)
      omega
  have hzero : (decide (n < 0) && (n.natAbs : Int) == 0) = false := by
    rw [Bool.and_eq_false_imp]
    intro hneg
    have := of_decide_eq_true hneg
    simp
    omega
  simp only [Numeral.value?, digitsValue_toDigits, hinteger, hzero, h, Option.isNone_none,
    Bool.and_self, Bool.not_false, ite_true]

/-! ## How the reader goes on -/

section
variable {fuel levels : Nat} {cs rest rest' : List Char} {value item : Value}

theorem skipSpace_cons {c : Char} (h : isSpace c = false) (cs : List Char) :
    skipSpace (c :: cs) = c :: cs := by
  simp [skipSpace, h]

theorem Ends.skipSpace (h : Ends rest) : skipSpace rest = rest := by
  cases rest with
  | nil => rfl
  | cons c rest =>
    refine skipSpace_cons ?_ rest
    rcases h c rfl with rfl | rfl | rfl <;> rfl

theorem readValue?_quote (text : String) (h : text.toList.length < fuel) :
    readValue? (fuel + 1) levels (quote text ++ rest) = some (.string text, rest) := by
  rw [readValue?.eq_def]
  simp [quote, readString?_flatMap h]

theorem readValue?_numeral {c : Char} {numeral : Numeral}
    (hfirst : ∀ d ∈ ['"', '[', '\x7b', 'n', 't', 'f'], c ≠ d)
    (hnumeral : readNumeral? (c :: cs) = some (numeral, rest))
    (hvalue : numeral.value? = some value) :
    readValue? (fuel + 1) levels (c :: cs) = some (value, rest) := by
  rw [readValue?.eq_def]
  simp only [List.mem_cons, List.not_mem_nil, or_false, forall_eq_or_imp, forall_eq] at hfirst
  simp [hfirst, hnumeral, hvalue]

theorem readValue?_array {items : List Value} (hfirst : ∀ more, cs ≠ ']' :: more)
    (hspace : skipSpace cs = cs) (hitem : readValue? fuel levels cs = some (item, rest))
    (hitems : readItems? fuel levels (skipSpace rest) = some (items, rest')) :
    readValue? (fuel + 1) (levels + 1) ('[' :: cs) = some (.array (item :: items), rest') := by
  rw [readValue?.eq_def]
  simp only [hspace]
  simp [hitem, hitems]

theorem readValue?_object {key : String} {members : List (String × Value)}
    (hmember : readMember? fuel levels ('"' :: cs) = some ((key, value), rest))
    (hmembers : readMembers? fuel levels (skipSpace rest) = some (members, rest')) :
    readValue? (fuel + 1) (levels + 1) ('\x7b' :: '"' :: cs) =
      some (.object ((key, value) :: members), rest') := by
  rw [readValue?.eq_def]
  simp [skipSpace_cons, isSpace, hmember, hmembers]

theorem readItems?_comma {items : List Value} (hspace : skipSpace cs = cs)
    (hitem : readValue? fuel levels cs = some (item, rest))
    (hitems : readItems? fuel levels (skipSpace rest) = some (items, rest')) :
    readItems? (fuel + 1) levels (',' :: cs) = some (item :: items, rest') := by
  rw [readItems?.eq_def]
  simp [hspace, hitem, hitems]

theorem readMember?_quote {key : String} (hkey : key.toList.length < fuel)
    (hspace : skipSpace cs = cs) (hvalue : readValue? fuel levels cs = some (value, rest)) :
    readMember? (fuel + 1) levels (quote key ++ ':' :: cs) = some ((key, value), rest) := by
  rw [readMember?.eq_def]
  simp [quote, readString?_flatMap hkey, skipSpace_cons, isSpace, hspace, hvalue]

theorem readMembers?_comma {member : String × Value} {members : List (String × Value)}
    (hmember : readMember? fuel levels ('"' :: cs) = some (member, rest))
    (hmembers : readMembers? fuel levels (skipSpace rest) = some (members, rest')) :
    readMembers? (fuel + 1) levels (',' :: '"' :: cs) = some (member :: members, rest') := by
  rw [readMembers?.eq_def]
  simp [skipSpace_cons, isSpace, hmember, hmembers]

end

/-! ## Values -/

/-- A value that the reader can give back: its integers fit a word, it has no other number, and it
is nested in at most the given number of levels. -/
inductive Plain : Nat → Value → Prop
  | null {levels : Nat} : Plain levels .null
  | boolean {levels : Nat} (value : Bool) : Plain levels (.boolean value)
  | integer {levels : Nat} {n : Int} : fitsWord n → Plain levels (.integer n)
  | string {levels : Nat} (text : String) : Plain levels (.string text)
  | array {levels : Nat} {items : List Value} :
    (∀ item ∈ items, Plain levels item) → Plain (levels + 1) (.array items)
  | object {levels : Nat} {members : List (String × Value)} :
    (∀ member ∈ members, Plain levels member.2) → Plain (levels + 1) (.object members)

/-- How the text of a value begins: with no blank, and with nothing that closes an array. -/
theorem Plain.writeValue_eq_cons {levels : Nat} {value : Value} (h : Plain levels value) :
    ∃ c cs, writeValue value = c :: cs ∧ isSpace c = false ∧ c ≠ ']' := by
  cases h with
  | null => exact ⟨_, _, rfl, by decide⟩
  | boolean value => cases value <;> exact ⟨_, _, rfl, by decide⟩
  | @integer _ n hfits =>
    rw [writeValue]
    rcases Int.lt_or_le n 0 with hneg | hpos
    · exact ⟨_, _, integerText_of_neg hneg, by decide⟩
    · obtain ⟨-, c, cs, hcs, hdigit⟩ := integerText_of_nonneg hpos
      refine ⟨c, cs, hcs, ?_, ?_⟩
      · rw [← Bool.not_eq_true]
        intro hspace
        simp only [isSpace, Bool.or_eq_true, beq_iff_eq] at hspace
        rcases hspace with ((rfl | rfl) | rfl) | rfl <;> exact absurd hdigit (by decide)
      · rintro rfl
        exact absurd hdigit (by decide)
  | string text => exact ⟨_, _, by rw [writeValue, quote], by decide⟩
  | @array _ items _ => cases items <;> exact ⟨_, _, by rw [writeValue], by decide⟩
  | @object _ members _ =>
    rcases members with - | ⟨⟨key, value⟩, members⟩ <;> exact ⟨_, _, by rw [writeValue], by decide⟩

theorem Plain.skipSpace {levels : Nat} {value : Value} (h : Plain levels value)
    (rest : List Char) : skipSpace (writeValue value ++ rest) = writeValue value ++ rest := by
  obtain ⟨c, cs, hcs, hspace, -⟩ := h.writeValue_eq_cons
  rw [hcs]
  exact skipSpace_cons hspace _

/-- The reader gives the value back wherever a value can end. -/
def Reads (levels : Nat) (value : Value) : Prop :=
  ∀ fuel rest, (writeValue value).length ≤ fuel → Ends rest →
    readValue? fuel levels (writeValue value ++ rest) = some (value, rest)

theorem exists_fuel {n fuel : Nat} (h : n < fuel) : ∃ less, fuel = less + 1 ∧ n ≤ less :=
  ⟨fuel - 1, by omega, by omega⟩

theorem reads_integer {levels : Nat} {n : Int} (h : fitsWord n) : Reads levels (.integer n) := by
  intro fuel rest hfuel hrest
  rw [writeValue] at hfuel ⊢
  have hnumeral := readNumeral?_integerText n hrest
  obtain ⟨c, cs, hcs, hfirst⟩ : ∃ c cs, integerText n = c :: cs ∧ (c = '-' ∨ c.isDigit) := by
    rcases Int.lt_or_le n 0 with hneg | hpos
    · exact ⟨_, _, integerText_of_neg hneg, .inl rfl⟩
    · obtain ⟨-, c, cs, hcs, hdigit⟩ := integerText_of_nonneg hpos
      exact ⟨c, cs, hcs, .inr hdigit⟩
  rw [hcs] at hfuel hnumeral ⊢
  obtain ⟨fuel, rfl, -⟩ := exists_fuel (Nat.lt_of_lt_of_le (Nat.succ_pos cs.length) hfuel)
  refine readValue?_numeral ?_ hnumeral (value?_integer h)
  have hother : ∀ d ∈ ['"', '[', '\x7b', 'n', 't', 'f'], d ≠ '-' ∧ d.isDigit = false := by
    simp only [List.forall_mem_cons]
    exact ⟨by decide, by decide, by decide, by decide, by decide, by decide, by simp⟩
  rintro d hd rfl
  obtain ⟨hminus, hdigit⟩ := hother c hd
  rcases hfirst with hfirst | hfirst
  · exact hminus hfirst
  · rw [hdigit] at hfirst
    cases hfirst

theorem length_lt_length_quote (text : String) : text.toList.length + 1 < (quote text).length := by
  have hle := length_le_length_flatMap_escape text.toList
  simp only [quote, List.length_cons, List.length_append, List.length_nil]
  omega

theorem reads_string {levels : Nat} (text : String) : Reads levels (.string text) := by
  intro fuel rest hfuel _
  rw [writeValue] at hfuel ⊢
  have hlength := length_lt_length_quote text
  obtain ⟨fuel, rfl, -⟩ := exists_fuel (Nat.lt_of_lt_of_le hlength hfuel)
  exact readValue?_quote text (by omega)

/-! ## Arrays -/

theorem ends_writeItems (items : List Value) (rest : List Char) :
    Ends (writeItems items ++ ']' :: rest) := by
  intro c hc
  cases items with
  | nil => cases hc; simp
  | cons item items => rw [writeItems] at hc; cases hc; simp

theorem readItems?_writeItems {levels fuel : Nat} {items : List Value}
    (hplain : ∀ item ∈ items, Plain levels item) (hreads : ∀ item ∈ items, Reads levels item)
    (hfuel : (writeItems items).length < fuel) (rest : List Char) :
    readItems? fuel levels (writeItems items ++ ']' :: rest) = some (items, rest) := by
  induction items generalizing fuel with
  | nil =>
    obtain ⟨fuel, rfl, -⟩ := exists_fuel hfuel
    rw [writeItems, readItems?.eq_def]
    rfl
  | cons item items ih =>
    obtain ⟨fuel, rfl, hless⟩ := exists_fuel hfuel
    obtain ⟨hitem, hplain⟩ := List.forall_mem_cons.1 hplain
    obtain ⟨hread, hreads⟩ := List.forall_mem_cons.1 hreads
    simp only [writeItems, List.cons_append, List.length_cons, List.length_append] at hless
    have hends := ends_writeItems items rest
    have hitems := ih hplain hreads (show (writeItems items).length < fuel by omega)
    rw [writeItems, List.cons_append, List.cons_append, List.append_assoc]
    refine readItems?_comma (hitem.skipSpace _) (hread fuel _ (by omega) hends) ?_
    rw [hends.skipSpace, hitems]

theorem reads_array {levels : Nat} {items : List Value}
    (hplain : ∀ item ∈ items, Plain levels item) (hreads : ∀ item ∈ items, Reads levels item) :
    Reads (levels + 1) (.array items) := by
  intro fuel rest hfuel _
  cases items with
  | nil =>
    obtain ⟨fuel, rfl, -⟩ := exists_fuel (Nat.lt_of_lt_of_le Nat.zero_lt_two hfuel)
    rw [writeValue, readValue?.eq_def]
    rfl
  | cons item items =>
    simp only [writeValue, List.length_cons, List.length_append, List.length_nil] at hfuel
    obtain ⟨fuel, rfl, hless⟩ := exists_fuel hfuel
    obtain ⟨hitem, hplain⟩ := List.forall_mem_cons.1 hplain
    obtain ⟨hread, hreads⟩ := List.forall_mem_cons.1 hreads
    have hends := ends_writeItems items rest
    have hitems := readItems?_writeItems hplain hreads
      (show (writeItems items).length < fuel by omega) rest
    simp only [writeValue, List.cons_append, List.append_assoc, List.nil_append]
    refine readValue?_array ?_ (hitem.skipSpace _) (hread fuel _ (by omega) hends)
      (hends.skipSpace.symm ▸ hitems)
    intro more heq
    obtain ⟨c, cs, hcs, -, hne⟩ := hitem.writeValue_eq_cons
    rw [hcs] at heq
    cases heq
    exact hne rfl

/-! ## Objects -/

theorem ends_writeMembers (members : List (String × Value)) (rest : List Char) :
    Ends (writeMembers members ++ '\x7d' :: rest) := by
  intro c hc
  rcases members with - | ⟨⟨key, value⟩, members⟩
  · cases hc; simp
  · rw [writeMembers] at hc; cases hc; simp

theorem readMember?_write {levels fuel : Nat} {key : String} {value : Value} {rest : List Char}
    (hplain : Plain levels value) (hreads : Reads levels value)
    (hfuel : (quote key).length + (writeValue value).length < fuel) (hends : Ends rest) :
    readMember? fuel levels (quote key ++ ':' :: (writeValue value ++ rest)) =
      some ((key, value), rest) := by
  obtain ⟨fuel, rfl, hless⟩ := exists_fuel hfuel
  have hkey := length_lt_length_quote key
  exact readMember?_quote (by omega) (hplain.skipSpace _) (hreads fuel rest (by omega) hends)

theorem readMembers?_writeMembers {levels fuel : Nat} {members : List (String × Value)}
    (hplain : ∀ member ∈ members, Plain levels member.2)
    (hreads : ∀ member ∈ members, Reads levels member.2)
    (hfuel : (writeMembers members).length < fuel) (rest : List Char) :
    readMembers? fuel levels (writeMembers members ++ '\x7d' :: rest) = some (members, rest) := by
  induction members generalizing fuel with
  | nil =>
    obtain ⟨fuel, rfl, -⟩ := exists_fuel hfuel
    rw [writeMembers, readMembers?.eq_def]
    rfl
  | cons member members ih =>
    obtain ⟨key, value⟩ := member
    obtain ⟨fuel, rfl, hless⟩ := exists_fuel hfuel
    obtain ⟨hvalue, hplain⟩ := List.forall_mem_cons.1 hplain
    obtain ⟨hread, hreads⟩ := List.forall_mem_cons.1 hreads
    simp only [writeMembers, List.length_cons, List.length_append] at hless
    have hends := ends_writeMembers members rest
    have hmembers := ih hplain hreads (show (writeMembers members).length < fuel by omega)
    have hmember := readMember?_write hvalue hread
      (show (quote key).length + (writeValue value).length < fuel by omega) hends
    rw [quote, List.cons_append] at hmember
    simp only [writeMembers, quote, List.cons_append, List.append_assoc]
    refine readMembers?_comma (by simpa using hmember) ?_
    rw [hends.skipSpace, hmembers]

theorem reads_object {levels : Nat} {members : List (String × Value)}
    (hplain : ∀ member ∈ members, Plain levels member.2)
    (hreads : ∀ member ∈ members, Reads levels member.2) :
    Reads (levels + 1) (.object members) := by
  intro fuel rest hfuel _
  rcases members with - | ⟨⟨key, value⟩, members⟩
  · obtain ⟨fuel, rfl, -⟩ := exists_fuel (Nat.lt_of_lt_of_le Nat.zero_lt_two hfuel)
    rw [writeValue, readValue?.eq_def]
    rfl
  · simp only [writeValue, List.length_cons, List.length_append, List.length_nil] at hfuel
    obtain ⟨fuel, rfl, hless⟩ := exists_fuel hfuel
    obtain ⟨hvalue, hplain⟩ := List.forall_mem_cons.1 hplain
    obtain ⟨hread, hreads⟩ := List.forall_mem_cons.1 hreads
    have hends := ends_writeMembers members rest
    have hmembers := readMembers?_writeMembers hplain hreads
      (show (writeMembers members).length < fuel by omega) rest
    have hmember := readMember?_write hvalue hread
      (show (quote key).length + (writeValue value).length < fuel by omega) hends
    rw [quote, List.cons_append] at hmember
    simp only [writeValue, quote, List.cons_append, List.append_assoc, List.nil_append]
    refine readValue?_object (by simpa using hmember) ?_
    rw [hends.skipSpace, hmembers]

theorem Plain.reads {levels : Nat} {value : Value} (h : Plain levels value) :
    Reads levels value := by
  induction h with
  | null =>
    intro fuel rest hfuel _
    obtain ⟨fuel, rfl, -⟩ := exists_fuel (Nat.lt_of_lt_of_le (Nat.succ_pos _) hfuel)
    rw [writeValue, readValue?.eq_def]
    simp [after?]
  | boolean value =>
    intro fuel rest hfuel _
    cases value <;>
    · obtain ⟨fuel, rfl, -⟩ := exists_fuel (Nat.lt_of_lt_of_le (Nat.succ_pos _) hfuel)
      rw [writeValue, readValue?.eq_def]
      simp [after?]
  | integer hfits => exact reads_integer hfits
  | string text => exact reads_string text
  | array hplain ih => exact reads_array hplain ih
  | object hplain ih => exact reads_object hplain ih

/-- A value that the reader can give back is read from its text. -/
theorem read?_write {value : Value} (h : Plain maxNesting value) :
    read? (write value) = some value := by
  have hread := h.reads (2 * (writeValue value).length + 2) [] (by omega) (by simp [Ends])
  have hspace := h.skipSpace []
  rw [List.append_nil] at hread hspace
  simp only [read?, write, String.toList_ofList, hspace, hread]
  rfl

end PocketShell.Json
