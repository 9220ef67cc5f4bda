import PocketShell.Text
import Mathlib.Algebra.Group.Nat.Defs
import Mathlib.Data.List.Induction

/-!
# Numbers in decimal digits

Reading gives back the number that was written, at whatever width, and nothing larger than its
digits can say; and what reads as a number is that number written, with zeros in front. A run of
digits ends where the first other character stands.
-/

namespace PocketShell.Text

theorem digit?_of_isDigit {c : Char} (h : c.isDigit) :
    digit? c = some (c.toNat - '0'.toNat) := by
  rw [digit?, if_pos h]

theorem foldlM_digit? {cs : List Char} (h : ∀ c ∈ cs, c.isDigit) (start : Nat) :
    cs.foldlM (fun n c => (digit? c).map (n * 10 + ·)) start =
      some (Nat.ofDigitChars 10 cs start) := by
  induction cs generalizing start with
  | nil => simp
  | cons c cs ih =>
    rw [List.foldlM_cons, digit?_of_isDigit (h c (by simp)), Nat.ofDigitChars_cons, Nat.mul_comm 10]
    exact ih (fun d hd => h d (List.mem_cons_of_mem _ hd)) _

theorem number?_of_isDigit {cs : List Char} (hne : cs ≠ []) (h : ∀ c ∈ cs, c.isDigit) :
    number? digit? 10 cs = some (Nat.ofDigitChars 10 cs 0) := by
  rw [number?, if_neg (by simpa using hne)]
  exact foldlM_digit? h 0

theorem lt_ten_of_digit? {c : Char} {d : Nat} (h : digit? c = some d) : d < 10 := by
  unfold digit? at h
  split at h
  · rename_i hc
    have hrange : 48 ≤ c.toNat ∧ c.toNat ≤ 57 := Char.isDigit_iff_toNat.1 hc
    have hd : c.toNat - 48 = d := Option.some.inj h
    omega
  · cases h

theorem lt_of_foldlM_digit? {cs : List Char} {start n : Nat}
    (h : cs.foldlM (fun n c => (digit? c).map (n * 10 + ·)) start = some n) :
    n < (start + 1) * 10 ^ cs.length := by
  induction cs generalizing start with
  | nil =>
    cases h
    simp
  | cons c cs ih =>
    rw [List.foldlM_cons] at h
    obtain ⟨next, hnext, h⟩ := Option.bind_eq_some_iff.1 h
    obtain ⟨d, hd, rfl⟩ := Option.map_eq_some_iff.1 hnext
    have hlt := lt_ten_of_digit? hd
    calc
      n < (start * 10 + d + 1) * 10 ^ cs.length := ih h
      _ ≤ ((start + 1) * 10) * 10 ^ cs.length := Nat.mul_le_mul_right _ (by omega)
      _ = (start + 1) * 10 ^ (c :: cs).length := by
        rw [List.length_cons, Nat.pow_succ', Nat.mul_assoc]

/-- A number is less than the power of ten that its digits amount to. -/
theorem lt_of_number? {cs : List Char} {n : Nat} (h : number? digit? 10 cs = some n) :
    n < 10 ^ cs.length := by
  rw [number?] at h
  split at h
  · cases h
  · simpa using lt_of_foldlM_digit? h

/-- Only zero begins with a zero. -/
theorem head?_toDigits_ne_zero {n : Nat} (h : 0 < n) : (Nat.toDigits 10 n).head? ≠ some '0' := by
  induction n using Nat.strongRecOn with
  | ind n ih =>
    rw [Nat.toDigits_eq_if (by decide)]
    split
    · simp [Nat.ne_of_gt h]
    · have hfront := ih (n / 10) (by omega) (by omega)
      obtain ⟨c, cs, hcs⟩ := List.exists_cons_of_ne_nil (@Nat.toDigits_ne_nil (n / 10) 10)
      rw [hcs] at hfront ⊢
      exact hfront

/-! ## What reads as a number -/

theorem number?_zeros_toDigits (zeros n : Nat) :
    number? digit? 10 (List.replicate zeros '0' ++ Nat.toDigits 10 n) = some n := by
  have hdigit : ∀ c ∈ List.replicate zeros '0' ++ Nat.toDigits 10 n, c.isDigit := by
    intro c hc
    rcases List.mem_append.1 hc with hc | hc
    · rw [(List.mem_replicate.1 hc).2]
      rfl
    · exact Nat.isDigit_of_mem_toDigits (by decide) (by decide) hc
  rw [number?_of_isDigit (by simp) hdigit, Nat.ofDigitChars_append,
    Nat.ofDigitChars_replicate_zero, Nat.mul_zero, Nat.ofDigitChars_ten_toDigits]

theorem isDigit_of_foldlM_digit? {cs : List Char} {start n : Nat}
    (h : cs.foldlM (fun n c => (digit? c).map (n * 10 + ·)) start = some n) :
    ∀ c ∈ cs, c.isDigit := by
  induction cs generalizing start with
  | nil => exact fun c hc => absurd hc List.not_mem_nil
  | cons first rest ih =>
    rw [List.foldlM_cons] at h
    obtain ⟨next, hnext, h⟩ := Option.bind_eq_some_iff.1 h
    obtain ⟨d, hd, -⟩ := Option.map_eq_some_iff.1 hnext
    intro c hc
    rcases List.mem_cons.1 hc with rfl | hc
    · by_contra hno
      rw [digit?, if_neg hno] at hd
      cases hd
    · exact ih h c hc

theorem toDigits_of_isDigit {c : Char} (h : c.isDigit) :
    c.toNat - '0'.toNat < 10 ∧ Nat.toDigits 10 (c.toNat - '0'.toNat) = [c] := by
  have hrange : 48 ≤ c.toNat ∧ c.toNat ≤ 57 := Char.isDigit_iff_toNat.1 h
  obtain ⟨d, hd⟩ : ∃ d, c.toNat = 48 + d := Nat.exists_eq_add_of_le hrange.1
  have hzero : '0'.toNat = 48 := rfl
  have hlt : d < 10 := by omega
  have hall : ∀ d < 10, Nat.toDigits 10 d = [Char.ofNat (48 + d)] := by decide
  rw [hzero, hd, Nat.add_sub_cancel_left, hall d hlt, ← hd, Char.ofNat_toNat]
  exact ⟨hlt, rfl⟩

/-- A run of digits is its number written, with zeros in front. -/
theorem eq_zeros_toDigits {cs : List Char} (hne : cs ≠ []) (h : ∀ c ∈ cs, c.isDigit) :
    ∃ zeros, cs = List.replicate zeros '0' ++ Nat.toDigits 10 (Nat.ofDigitChars 10 cs 0) := by
  induction cs using List.reverseRecOn with
  | nil => exact absurd rfl hne
  | append_singleton cs c ih =>
    obtain ⟨hlt, hlast⟩ := toDigits_of_isDigit (h c (by simp))
    rw [Nat.ofDigitChars_append, Nat.ofDigitChars_cons, Nat.ofDigitChars_nil]
    by_cases hcs : cs = []
    · subst hcs
      refine ⟨0, ?_⟩
      rw [Nat.ofDigitChars_nil, Nat.mul_zero, Nat.zero_add, hlast]
      rfl
    obtain ⟨zeros, hfront⟩ := ih hcs fun d hd => h d (List.mem_append_left _ hd)
    rcases Nat.eq_zero_or_pos (Nat.ofDigitChars 10 cs 0) with hvalue | hvalue
    · -- The digits so far are zeros only, and all of them stand in front of the last digit.
      rw [hvalue, Nat.toDigits_zero, ← List.replicate_succ'] at hfront
      exact ⟨zeros + 1, by rw [hvalue, Nat.mul_zero, Nat.zero_add, hlast, ← hfront]⟩
    · refine ⟨zeros, ?_⟩
      rw [← Nat.toDigits_append_toDigits (by decide) hvalue hlt, hlast, ← List.append_assoc,
        ← hfront]

/-- What reads as a number is the number written, with zeros in front. -/
theorem number?_eq_some_iff {cs : List Char} {n : Nat} :
    number? digit? 10 cs = some n ↔
      ∃ zeros, cs = List.replicate zeros '0' ++ Nat.toDigits 10 n := by
  constructor
  · intro h
    have hread := h
    rw [number?] at hread
    split at hread
    · cases hread
    · rename_i hne
      have hne' : cs ≠ [] := by simpa using hne
      have hdigit := isDigit_of_foldlM_digit? hread
      rw [number?_of_isDigit hne' hdigit] at h
      rw [← Option.some.inj h]
      exact eq_zeros_toDigits hne' hdigit
  · rintro ⟨zeros, rfl⟩
    exact number?_zeros_toDigits zeros n

/-! ## Digits of a given width -/

theorem toList_digits (width n : Nat) :
    (digits width n).toList =
      List.replicate (width - (Nat.toDigits 10 n).length) '0' ++ Nat.toDigits 10 n := by
  simp [digits, padLeft]

theorem isDigit_of_mem_digits {width n : Nat} {c : Char} (h : c ∈ (digits width n).toList) :
    c.isDigit := by
  rw [toList_digits, List.mem_append] at h
  rcases h with h | h
  · rw [(List.mem_replicate.1 h).2]
    rfl
  · exact Nat.isDigit_of_mem_toDigits (by decide) (by decide) h

theorem number?_digits (width n : Nat) : number? digit? 10 (digits width n).toList = some n := by
  rw [toList_digits, number?_zeros_toDigits]

theorem toList_decimal (n : Nat) : (decimal n).toList = Nat.toDigits 10 n := by
  have hpos : 1 - (Nat.toDigits 10 n).length = 0 := Nat.sub_eq_zero_of_le Nat.length_toDigits_pos
  rw [decimal, toList_digits, hpos, List.replicate_zero, List.nil_append]

/-- A number that fits the width takes exactly that many digits. -/
theorem length_digits {width n : Nat} (hpos : 0 < width) (h : n < 10 ^ width) :
    (digits width n).toList.length = width := by
  have hle := (Nat.length_toDigits_le_iff (by decide) hpos).2 h
  rw [toList_digits, List.length_append, List.length_replicate]
  omega

/-! ## Where a run of digits ends -/

/-- The text does not go on with a digit. -/
def NoDigit (rest : List Char) : Prop :=
  ∀ c ∈ rest.head?, c.isDigit = false

theorem takeWhile_isDigit {cs rest : List Char} (h : ∀ c ∈ cs, c.isDigit) (hrest : NoDigit rest) :
    (cs ++ rest).takeWhile Char.isDigit = cs := by
  rw [List.takeWhile_append_of_pos h]
  cases rest with
  | nil => simp
  | cons c rest => simp [hrest c rfl]

theorem dropWhile_isDigit {cs rest : List Char} (h : ∀ c ∈ cs, c.isDigit) (hrest : NoDigit rest) :
    (cs ++ rest).dropWhile Char.isDigit = rest := by
  rw [List.dropWhile_append_of_pos h]
  cases rest with
  | nil => rfl
  | cons c rest => simp [hrest c rfl]

end PocketShell.Text
