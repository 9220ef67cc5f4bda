import PocketShell.Proofs.Digits
import PocketShell.Proofs.Time.Calendar
import PocketShell.Time.Rfc3339

/-!
# Stamps survive being written

A stamp that has a text is read back from it to the nanosecond and with its offset, and what is read
from any text has a text of its own.
-/

namespace PocketShell.Time.Rfc3339

/-! ## Numbers of a given width -/

theorem takeDigits?_digits {width n : Nat} (hpos : 0 < width) (h : n < 10 ^ width)
    (rest : List Char) :
    takeDigits? width ((Text.digits width n).toList ++ rest) = some (n, rest) := by
  have hlength := Text.length_digits hpos h
  rw [takeDigits?, List.take_left' hlength, if_pos hlength, Text.number?_digits,
    List.drop_left' hlength]
  rfl

theorem lt_of_takeDigits? {width n : Nat} {cs rest : List Char}
    (h : takeDigits? width cs = some (n, rest)) : n < 10 ^ width := by
  unfold takeDigits? at h
  split at h
  · rename_i hlength
    obtain ⟨m, hm, heq⟩ := Option.map_eq_some_iff.1 h
    cases heq
    rw [← hlength]
    exact Text.lt_of_number? hm
  · cases h

theorem takeTriple?_digits {width a b c : Nat} (mark : Char) (rest : List Char)
    (hpos : 0 < width) (ha : a < 10 ^ width) (hb : b < 100) (hc : c < 100) :
    takeTriple? width mark ((Text.digits width a).toList ++ mark :: ((Text.digits 2 b).toList ++
      mark :: ((Text.digits 2 c).toList ++ rest))) = some ((a, b, c), rest) := by
  have hb' := takeDigits?_digits (Nat.zero_lt_two) hb
  have hc' := takeDigits?_digits Nat.zero_lt_two hc rest
  simp [takeTriple?, takeDigits?_digits hpos ha, after?, hb', hc']

/-! ## Fractions -/

theorem exists_eq_dropTail_append (xs : List Char) :
    ∃ count, xs = Text.dropTail (· == '0') xs ++ List.replicate count '0' := by
  have hzeros : ∀ c ∈ xs.reverse.takeWhile (· == '0'), c = '0' := by
    intro c hc
    simpa using List.all_eq_true.1 List.all_takeWhile c hc
  refine ⟨(xs.reverse.takeWhile (· == '0')).length, ?_⟩
  calc
    xs = (xs.reverse.takeWhile (· == '0') ++ xs.reverse.dropWhile (· == '0')).reverse := by
      rw [List.takeWhile_append_dropWhile, List.reverse_reverse]
    _ = Text.dropTail (· == '0') xs ++ (xs.reverse.takeWhile (· == '0')).reverse := by
      rw [List.reverse_append, Text.dropTail]
    _ = _ := by
      rw [List.eq_replicate_iff.2 ⟨rfl, hzeros⟩, List.reverse_replicate, List.length_replicate]

theorem isDigit_of_mem_fractionDigits {nanos : Nat} {c : Char} (h : c ∈ fractionDigits nanos) :
    c.isDigit := by
  obtain ⟨count, heq⟩ := exists_eq_dropTail_append (Text.digits 9 nanos).toList
  have hmem : c ∈ (Text.digits 9 nanos).toList := by
    rw [heq, List.mem_append]
    exact .inl h
  exact Text.isDigit_of_mem_digits hmem

/-- Zeros bring the digits of a fraction back to nine. -/
theorem take_fractionDigits {nanos : Nat} (h : nanos < nanosPerSecond) :
    (fractionDigits nanos ++ List.replicate 9 '0').take 9 = (Text.digits 9 nanos).toList := by
  have hlength : (Text.digits 9 nanos).toList.length = 9 := Text.length_digits (by decide) h
  obtain ⟨count, heq⟩ := exists_eq_dropTail_append (Text.digits 9 nanos).toList
  rw [← fractionDigits] at heq
  have hle : count ≤ 9 := by
    rw [heq, List.length_append, List.length_replicate] at hlength
    omega
  have hzeros :
      List.replicate 9 '0' = List.replicate count '0' ++ List.replicate (9 - count) '0' := by
    rw [List.replicate_append_replicate, Nat.add_sub_cancel' hle]
  rw [hzeros, ← List.append_assoc, ← heq, List.take_left' hlength]

theorem fractionDigits_ne_nil {nanos : Nat} (h : nanos ≠ 0) : fractionDigits nanos ≠ [] := by
  intro hnil
  obtain ⟨count, heq⟩ := exists_eq_dropTail_append (Text.digits 9 nanos).toList
  rw [← fractionDigits, hnil, List.nil_append] at heq
  have hvalue := Text.number?_digits 9 nanos
  have hne : List.replicate count '0' ≠ [] := by
    rw [← heq]
    simp [Text.toList_digits]
  rw [heq, Text.number?_of_isDigit hne (by simp), Nat.ofDigitChars_replicate_zero] at hvalue
  exact h (by simpa using hvalue.symm)

theorem takeFraction?_fractionText {nanos : Nat} (h : nanos < nanosPerSecond) {rest : List Char}
    (hrest : Text.NoDigit rest) (hpoint : rest.head? ≠ some '.') :
    takeFraction? ((fractionText nanos).toList ++ rest) = some (nanos, rest) := by
  unfold fractionText
  split
  · subst nanos
    simp only [String.toList_empty, List.nil_append]
    unfold takeFraction?
    split
    · simp at hpoint
    · rfl
  · rename_i hne
    have hdigits : ∀ c ∈ fractionDigits nanos, c.isDigit := fun _ => isDigit_of_mem_fractionDigits
    have hnil := fractionDigits_ne_nil hne
    have hnanos : Text.number? Text.digit? 10
        ((fractionDigits nanos ++ List.replicate 9 '0').take 9) = some nanos := by
      rw [take_fractionDigits h, Text.number?_digits]
    have hchars : ("." ++ String.ofList (fractionDigits nanos)).toList ++ rest =
        '.' :: (fractionDigits nanos ++ rest) := by simp
    rw [hchars, takeFraction?]
    simp only [Text.takeWhile_isDigit hdigits hrest, Text.dropWhile_isDigit hdigits hrest,
      List.isEmpty_iff, hnil, ite_false, hnanos]
    rfl

/-! ## Offsets -/

theorem offset?_digits {sign : Char} {unit : Int} {hours minutes : Nat}
    (hsign : sign = '+' ∧ unit = 1 ∨ sign = '-' ∧ unit = -1) (hhours : hours < 24)
    (hminutes : minutes < 60) :
    offset? (sign :: ((Text.digits 2 hours).toList ++ ':' :: (Text.digits 2 minutes).toList)) =
      some (unit * (3600 * hours + 60 * minutes : Nat)) := by
  have htake := takeDigits?_digits Nat.zero_lt_two (Nat.lt_trans hhours (by decide : 24 < 10 ^ 2))
  have htake' := takeDigits?_digits Nat.zero_lt_two
    (Nat.lt_trans hminutes (by decide : 60 < 10 ^ 2)) []
  rw [List.append_nil] at htake'
  rcases hsign with ⟨rfl, rfl⟩ | ⟨rfl, rfl⟩
  · simp [offset?, htake, htake', after?, hhours, hminutes]
  · simp [offset?, htake, htake', after?, hhours, hminutes]

theorem offset?_offsetText {offset : Int} (hlt : offset.natAbs < 86400)
    (hminute : offset.natAbs % 60 = 0) : offset? (offsetText offset).toList = some offset := by
  unfold offsetText
  split
  · subst offset
    rfl
  · have hsum : 3600 * (offset.natAbs / 3600) + 60 * (offset.natAbs / 60 % 60) = offset.natAbs := by
      omega
    have hhours : offset.natAbs / 3600 < 24 := by omega
    have hminutes : offset.natAbs / 60 % 60 < 60 := by omega
    have hchars : ∀ sign : Char, (String.singleton sign ++ Text.digits 2 (offset.natAbs / 3600) ++
        ":" ++ Text.digits 2 (offset.natAbs / 60 % 60)).toList =
          sign :: ((Text.digits 2 (offset.natAbs / 3600)).toList ++
            ':' :: (Text.digits 2 (offset.natAbs / 60 % 60)).toList) := by
      intro sign
      simp
    split
    · rw [show "-" = String.singleton '-' from rfl, hchars,
        offset?_digits (.inr ⟨rfl, rfl⟩) hhours hminutes, hsum]
      refine congrArg some ?_
      omega
    · rw [show "+" = String.singleton '+' from rfl, hchars,
        offset?_digits (.inl ⟨rfl, rfl⟩) hhours hminutes, hsum]
      refine congrArg some ?_
      omega

theorem head?_offsetText (offset : Int) :
    ∃ c ∈ (offsetText offset).toList.head?, c.isDigit = false ∧ c ≠ '.' := by
  unfold offsetText
  split
  · exact ⟨'Z', rfl, by decide⟩
  · split
    · exact ⟨'-', by simp, by decide⟩
    · exact ⟨'+', by simp, by decide⟩

/-! ## Stamps -/

theorem date_stamp (s : Stamp) :
    s.localSeconds = secondsPerDay * s.date.dayNumber + s.secondOfDay ∧
      s.secondOfDay < 86400 := by
  rw [Stamp.date, Date.dayNumber_ofDayNumber, Stamp.secondOfDay]
  unfold secondsPerDay
  omega

/-- A stamp is that of the date and the time of day it shows. -/
theorem stamp?_self (s : Stamp) :
    stamp? s.date s.hour s.minute s.second s.nanos s.offset = some s := by
  obtain ⟨hlocal, hlt⟩ := date_stamp s
  have hvalid : s.date.isValid := Date.isValid_ofDayNumber _
  have hclock : s.hour < 24 ∧ s.minute < 60 ∧ s.second < 60 := by
    unfold Stamp.hour Stamp.minute Stamp.second
    omega
  have hsum : 3600 * s.hour + 60 * s.minute + s.second = s.secondOfDay := by
    unfold Stamp.hour Stamp.minute Stamp.second
    omega
  rw [stamp?, dif_pos s.nanos_lt, if_pos (by simp [hvalid, hclock])]
  dsimp only
  rw [hsum, ← hlocal, Stamp.localSeconds, Int.add_sub_cancel]

theorem isWritable_iff {s : Stamp} :
    isWritable s ↔ 0 ≤ s.date.year ∧ s.date.year ≤ 9999 ∧ s.offset.natAbs < 86400 ∧
      s.offset.natAbs % 60 = 0 := by
  simp [isWritable, and_assoc]

theorem write?_eq_some {s : Stamp} {text : String} :
    write? s = some text ↔ isWritable s ∧
      s.dateText ++ "T" ++ s.clock ++ fractionText s.nanos ++ offsetText s.offset = text := by
  simp [write?]

theorem toList_text (s : Stamp) (h : 0 ≤ s.date.year) (end_ : List Char) :
    (s.dateText ++ "T" ++ s.clock).toList ++ end_ =
      (Text.digits 4 s.date.year.natAbs).toList ++ '-' :: ((Text.digits 2 s.date.month).toList ++
        '-' :: ((Text.digits 2 s.date.day).toList ++ 'T' :: ((Text.digits 2 s.hour).toList ++
          ':' :: ((Text.digits 2 s.minute).toList ++ ':' :: ((Text.digits 2 s.second).toList ++
            end_))))) := by
  simp [Stamp.dateText, Stamp.yearText, Stamp.clock, Int.not_lt.2 h]

/-- A stamp is read back from its text. -/
theorem read?_write? {s : Stamp} {text : String} (h : write? s = some text) :
    read? text = some s := by
  obtain ⟨hwritable, rfl⟩ := write?_eq_some.1 h
  obtain ⟨hfirst, hlast, hoffset, hminute⟩ := isWritable_iff.1 hwritable
  obtain ⟨-, hday⟩ := date_stamp s
  have hvalid := Date.isValid_iff.1 (Date.isValid_ofDayNumber (s.localSeconds / secondsPerDay))
  have hdays := Date.daysInMonth_le s.date.year s.date.month
  rw [← Stamp.date] at hvalid
  have hdate := fun rest => takeTriple?_digits '-' rest (by decide : 0 < 4)
    (show s.date.year.natAbs < 10 ^ 4 by omega) (show s.date.month < 100 by omega)
    (show s.date.day < 100 by omega)
  have hclock := fun rest => takeTriple?_digits ':' rest (by decide : 0 < 2)
    (show s.hour < 10 ^ 2 by unfold Stamp.hour; omega)
    (show s.minute < 100 by unfold Stamp.minute; omega)
    (show s.second < 100 by unfold Stamp.second; omega)
  have hfraction : takeFraction? ((fractionText s.nanos).toList ++ (offsetText s.offset).toList) =
      some (s.nanos, (offsetText s.offset).toList) := by
    obtain ⟨c, hhead, hdigit, hpoint⟩ := head?_offsetText s.offset
    refine takeFraction?_fractionText s.nanos_lt (fun d hd => ?_) (fun hsome => ?_)
    · cases hhead.symm.trans hd
      exact hdigit
    · cases hhead.symm.trans hsome
      exact hpoint rfl
  have hsecond : s.second ≠ 60 := by unfold Stamp.second; omega
  have hyear : (s.date.year.natAbs : Int) = s.date.year := Int.natAbs_of_nonneg hfirst
  rw [read?, String.toList_append, String.toList_append, List.append_assoc, toList_text s hfirst]
  simp [hdate, afterSeparator?, hclock, hfraction, offset?_offsetText hoffset hminute, hsecond,
    hyear]
  exact stamp?_self s

/-! ## What is read -/

theorem lt_of_takeTriple? {width a b c : Nat} {mark : Char} {cs rest : List Char}
    (h : takeTriple? width mark cs = some ((a, b, c), rest)) : a < 10 ^ width := by
  simp only [takeTriple?, bind, pure, Option.bind_eq_some_iff, Option.some.injEq] at h
  obtain ⟨⟨first, more⟩, hfirst, _, -, ⟨_, _⟩, -, _, -, ⟨_, _⟩, -, heq⟩ := h
  cases heq
  exact lt_of_takeDigits? hfirst

theorem offset_of_fields {unit offset : Int} {hours minutes : Nat} {rest : List Char}
    (hunit : unit.natAbs = 1)
    (h : (if rest.isEmpty && hours < 24 && minutes < 60 then
      some (unit * (3600 * hours + 60 * minutes : Nat)) else none) = some offset) :
    offset.natAbs < 86400 ∧ offset.natAbs % 60 = 0 := by
  split at h
  · rename_i hbounds
    simp only [Bool.and_eq_true, decide_eq_true_eq] at hbounds
    cases h
    rw [Int.natAbs_mul, hunit, Nat.one_mul, Int.natAbs_natCast]
    omega
  · cases h

theorem offset_of_offset? {cs : List Char} {offset : Int} (h : offset? cs = some offset) :
    offset.natAbs < 86400 ∧ offset.natAbs % 60 = 0 := by
  unfold offset? at h
  split at h
  · cases h; decide
  · cases h; decide
  · simp only [bind, pure] at h
    split at h
    · simp only [Option.bind_some, Option.bind_eq_some_iff] at h
      obtain ⟨⟨hours, after⟩, -, _, -, ⟨minutes, rest⟩, -, h⟩ := h
      exact offset_of_fields rfl h
    · split at h
      · simp only [Option.bind_some, Option.bind_eq_some_iff] at h
        obtain ⟨⟨hours, after⟩, -, _, -, ⟨minutes, rest⟩, -, h⟩ := h
        exact offset_of_fields rfl h
      · cases h
  · cases h

theorem shown_of_stamp? {date : Date} {hour minute second nanos : Nat} {offset : Int} {s : Stamp}
    (h : stamp? date hour minute second nanos offset = some s) :
    s.date = date ∧ s.offset = offset := by
  unfold stamp? at h
  split at h
  · split at h
    · rename_i hfields
      simp only [Bool.and_eq_true, decide_eq_true_eq] at hfields
      cases h
      refine ⟨?_, rfl⟩
      rw [Stamp.date, Stamp.localSeconds]
      dsimp only
      rw [Int.sub_add_cancel, show secondsPerDay = 86400 from rfl,
        show (86400 * date.dayNumber + (3600 * hour + 60 * minute + second : Nat)) / 86400 =
          date.dayNumber by omega]
      exact Date.ofDayNumber_dayNumber hfields.1.1.1
    · cases h
  · cases h

/-- What is read can be written. -/
theorem isWritable_of_read? {s : Stamp} {text : String} (h : read? text = some s) :
    isWritable s := by
  simp only [read?, bind, Option.bind_eq_some_iff] at h
  obtain ⟨⟨⟨year, month, day⟩, cs⟩, hdate, -, -, ⟨⟨hour, minute, second⟩, cs'⟩, -,
    ⟨nanos, cs''⟩, -, offset, hoffset, h⟩ := h
  have hyear : year < 10 ^ 4 := lt_of_takeTriple? hdate
  obtain ⟨hlt, hminute⟩ := offset_of_offset? hoffset
  have hshown : s.date = ⟨year, month, day⟩ ∧ s.offset = offset := by
    dsimp only at h
    split at h
    · obtain ⟨found, hfound, h⟩ := Option.bind_eq_some_iff.1 h
      split at h
      · cases h
        exact shown_of_stamp? hfound
      · cases h
    · exact shown_of_stamp? h
  rw [isWritable_iff, hshown.1, hshown.2]
  dsimp only
  omega

end PocketShell.Time.Rfc3339
