import PocketShell.Time.Calendar
import Mathlib.Tactic.IntervalCases

/-!
# Dates and their day numbers

A date is valid exactly when it is the date of a day number, and the two determine each other. The
way between them has two halves: a day number is a year that begins in March and a day of that
year, and these are a month and a day of it. Only the last day of such a year depends on the year.
-/

namespace PocketShell.Time.Date

/-! ## Years that begin in March -/

/-- The year of the cycle that a day of the cycle falls in, and the day of that year. -/
def yearDayOf (dayOfCycle : Nat) : Nat × Nat :=
  let century := min (dayOfCycle / 36524) 3
  let dayOfCentury := dayOfCycle - 36524 * century
  let olympiad := dayOfCentury / 1461
  let dayOfOlympiad := dayOfCentury - 1461 * olympiad
  let yearOfOlympiad := min (dayOfOlympiad / 365) 3
  (100 * century + 4 * olympiad + yearOfOlympiad, dayOfOlympiad - 365 * yearOfOlympiad)

/-- The day of the cycle that is the given day of a year of it. -/
def dayOfCycle (yearOfCycle dayOfYear : Nat) : Nat :=
  365 * yearOfCycle + yearOfCycle / 4 - yearOfCycle / 100 + dayOfYear

/-- A year of the cycle has the day: the last one only if the year after it is a leap year. -/
def HasDay (yearOfCycle dayOfYear : Nat) : Prop :=
  yearOfCycle < 400 ∧ dayOfYear ≤ 365 ∧ (dayOfYear = 365 → isLeapYear (yearOfCycle + 1))

theorem isLeapYear_iff {year : Int} :
    isLeapYear year ↔ year % 4 = 0 ∧ (year % 100 ≠ 0 ∨ year % 400 = 0) := by
  simp [isLeapYear]

theorem hasDay_of_yearDayOf {day years days : Nat} (h : day < 146097)
    (heq : yearDayOf day = (years, days)) : dayOfCycle years days = day ∧ HasDay years days := by
  simp only [yearDayOf, Prod.mk.injEq] at heq
  generalize hcentury : min (day / 36524) 3 = century at heq
  generalize hrest : day - 36524 * century = dayOfCentury at heq
  generalize holympiad : dayOfCentury / 1461 = olympiad at heq
  generalize hrest' : dayOfCentury - 1461 * olympiad = dayOfOlympiad at heq
  generalize hyear : min (dayOfOlympiad / 365) 3 = year at heq
  obtain ⟨rfl, rfl⟩ := heq
  have hday : day = 36524 * century + dayOfCentury := by omega
  have hlast : dayOfCentury ≤ 36524 ∧ (century < 3 → dayOfCentury < 36524) := by omega
  have hcentury_le : century ≤ 3 := by omega
  have hdays : dayOfCentury = 1461 * olympiad + dayOfOlympiad ∧ dayOfOlympiad < 1461 := by omega
  have hyear_le : year ≤ 3 ∧ 365 * year ≤ dayOfOlympiad := by omega
  have hdays_le : dayOfOlympiad - 365 * year ≤ 365 := by omega
  have hlong : dayOfOlympiad - 365 * year = 365 → year = 3 ∧ dayOfOlympiad = 1460 := by omega
  clear hcentury hrest holympiad hrest' hyear
  have hfours : (100 * century + 4 * olympiad + year) / 4 = 25 * century + olympiad := by omega
  have hhundreds : (100 * century + 4 * olympiad + year) / 100 = century := by omega
  refine ⟨?_, by omega, hdays_le, fun heq => ?_⟩
  · rw [dayOfCycle, hfours, hhundreds]
    omega
  · obtain ⟨rfl, rfl⟩ := hlong heq
    -- the leap day ends an olympiad, and a century only when it ends the cycle too
    have hend : olympiad < 24 ∨ century = 3 := by omega
    rw [isLeapYear_iff]
    omega

theorem yearDayOf_dayOfCycle {years days : Nat} (h : HasDay years days) :
    dayOfCycle years days < 146097 ∧ yearDayOf (dayOfCycle years days) = (years, days) := by
  obtain ⟨hyears, hdays, hleap⟩ := h
  obtain ⟨century, rest, hrest, hcentury, rfl⟩ :
      ∃ century rest, rest < 100 ∧ century ≤ 3 ∧ years = 100 * century + rest :=
    ⟨years / 100, years % 100, by omega, by omega, by omega⟩
  obtain ⟨olympiad, year, hyear, holympiad, rfl⟩ :
      ∃ olympiad year, year < 4 ∧ olympiad ≤ 24 ∧ rest = 4 * olympiad + year :=
    ⟨rest / 4, rest % 4, by omega, by omega, by omega⟩
  have hlong : days = 365 → year = 3 ∧ (olympiad < 24 ∨ century = 3) := by
    intro heq
    obtain ⟨hfour, hhundred⟩ := isLeapYear_iff.1 (hleap heq)
    have hyear : year = 3 := by omega
    subst hyear
    omega
  have hday : dayOfCycle (100 * century + (4 * olympiad + year)) days =
      36524 * century + 1461 * olympiad + 365 * year + days := by
    have hfours : (100 * century + (4 * olympiad + year)) / 4 = 25 * century + olympiad := by omega
    have hhundreds : (100 * century + (4 * olympiad + year)) / 100 = century := by omega
    rw [dayOfCycle, hfours, hhundreds]
    omega
  rw [hday]
  clear hday hleap
  have hcenturyOf :
      min ((36524 * century + 1461 * olympiad + 365 * year + days) / 36524) 3 = century := by
    omega
  have hafterCentury : 36524 * century + 1461 * olympiad + 365 * year + days - 36524 * century =
      1461 * olympiad + 365 * year + days := by omega
  have holympiadOf : (1461 * olympiad + 365 * year + days) / 1461 = olympiad := by omega
  have hafterOlympiad :
      1461 * olympiad + 365 * year + days - 1461 * olympiad = 365 * year + days := by omega
  have hyearOf : min ((365 * year + days) / 365) 3 = year := by omega
  refine ⟨by omega, ?_⟩
  simp only [yearDayOf, hcenturyOf, hafterCentury, holympiadOf, hafterOlympiad, hyearOf,
    Nat.add_sub_cancel_left]
  rw [Nat.add_assoc]

/-! ## Months -/

/-- The date that is the given day of a year that begins in March. -/
def ofMarch (year : Int) (dayOfYear : Nat) : Date :=
  let monthFromMarch := (5 * dayOfYear + 2) / 153
  let day := dayOfYear - (153 * monthFromMarch + 2) / 5 + 1
  if monthFromMarch < 10 then ⟨year, monthFromMarch + 3, day⟩
  else ⟨year + 1, monthFromMarch - 9, day⟩

/-- The year that begins in March and has the date in it. -/
def marchYear (d : Date) : Int :=
  if d.month ≤ 2 then d.year - 1 else d.year

/-- The day of that year. -/
def marchDay (d : Date) : Nat :=
  let monthFromMarch := if d.month ≤ 2 then d.month + 9 else d.month - 3
  (153 * monthFromMarch + 2) / 5 + (d.day - 1)

theorem ofMarch_of_lt {year : Int} {day month : Nat} (hmonth : (5 * day + 2) / 153 = month)
    (h : month < 10) : ofMarch year day = ⟨year, month + 3, day - (153 * month + 2) / 5 + 1⟩ := by
  subst hmonth
  exact if_pos h

theorem ofMarch_of_le {year : Int} {day month : Nat} (hmonth : (5 * day + 2) / 153 = month)
    (h : 10 ≤ month) :
    ofMarch year day = ⟨year + 1, month - 9, day - (153 * month + 2) / 5 + 1⟩ := by
  subst hmonth
  exact if_neg (Nat.not_lt.2 h)

theorem isValid_iff {d : Date} :
    d.isValid ↔ 1 ≤ d.month ∧ d.month ≤ 12 ∧ 1 ≤ d.day ∧ d.day ≤ daysInMonth d.year d.month := by
  simp [isValid, and_assoc]

theorem isValid_ofMarch {year : Int} {day : Nat} (hday : day ≤ 365)
    (hleap : day = 365 → isLeapYear (year + 1)) : (ofMarch year day).isValid := by
  rw [isValid_iff]
  generalize hmonth : (5 * day + 2) / 153 = month
  rcases Nat.lt_or_ge month 10 with hlt | hge
  · rw [ofMarch_of_lt hmonth hlt]
    refine ⟨by dsimp only; omega, by dsimp only; omega, by dsimp only; omega, ?_⟩
    unfold daysInMonth
    dsimp only
    split <;> omega
  · rw [ofMarch_of_le hmonth hge]
    refine ⟨by dsimp only; omega, by dsimp only; omega, by dsimp only; omega, ?_⟩
    unfold daysInMonth
    dsimp only
    split
    · split
      · omega
      · rename_i hnot
        have hne : day ≠ 365 := fun heq => hnot (hleap heq)
        omega
    all_goals omega

theorem march_ofMarch (year : Int) {day : Nat} (hday : day ≤ 365) :
    (ofMarch year day).marchYear = year ∧ (ofMarch year day).marchDay = day := by
  generalize hmonth : (5 * day + 2) / 153 = month
  unfold marchYear marchDay
  rcases Nat.lt_or_ge month 10 with hlt | hge
  · rw [ofMarch_of_lt hmonth hlt]
    dsimp only
    rw [if_neg (by omega), if_neg (by omega)]
    omega
  · rw [ofMarch_of_le hmonth hge]
    dsimp only
    rw [if_pos (by omega), if_pos (by omega)]
    omega

theorem daysInMonth_le (year : Int) (month : Nat) :
    daysInMonth year month ≤ 31 ∧
      (month = 4 ∨ month = 6 ∨ month = 9 ∨ month = 11 → daysInMonth year month = 30) ∧
      (month = 2 → daysInMonth year month ≤ 29 ∧
        (daysInMonth year month = 29 → isLeapYear year)) := by
  refine ⟨?_, ?_, ?_⟩
  · unfold daysInMonth
    split
    · split <;> omega
    all_goals omega
  · rintro (rfl | rfl | rfl | rfl) <;> rfl
  · rintro rfl
    simp only [daysInMonth]
    split
    · exact ⟨Nat.le_refl _, fun _ => ‹_›⟩
    · exact ⟨by omega, by omega⟩

theorem ofMarch_march {d : Date} (h : d.isValid) : ofMarch d.marchYear d.marchDay = d := by
  obtain ⟨hfirst, hlast, hpos, hle⟩ := isValid_iff.1 h
  obtain ⟨hmost, hshort, hfebruary⟩ := daysInMonth_le d.year d.month
  obtain ⟨year, month, day⟩ := d
  dsimp only at hfirst hlast hpos hle hmost hshort hfebruary
  generalize daysInMonth year month = length at hle hmost hshort hfebruary
  have hback : (5 * marchDay ⟨year, month, day⟩ + 2) / 153 =
      if month ≤ 2 then month + 9 else month - 3 := by
    simp only [marchDay]
    interval_cases month <;> (simp only [Nat.reduceLeDiff, ite_true, ite_false]; omega)
  by_cases hmonth : month ≤ 2
  · rw [if_pos hmonth] at hback
    rw [ofMarch_of_le hback (by omega)]
    simp only [marchDay, marchYear, if_pos hmonth, Date.mk.injEq]
    omega
  · rw [if_neg hmonth] at hback
    rw [ofMarch_of_lt hback (by omega)]
    simp only [marchDay, marchYear, if_neg hmonth, Date.mk.injEq]
    exact ⟨trivial, by omega, by omega⟩

theorem marchDay_le {d : Date} (h : d.isValid) :
    d.marchDay ≤ 365 ∧ (d.marchDay = 365 → isLeapYear (d.marchYear + 1)) := by
  obtain ⟨hfirst, hlast, hpos, hle⟩ := isValid_iff.1 h
  obtain ⟨hmost, -, hfebruary⟩ := daysInMonth_le d.year d.month
  unfold marchYear marchDay
  dsimp only
  split
  · refine ⟨by omega, fun heq => ?_⟩
    have htwo : d.month = 2 := by omega
    rw [Int.sub_add_cancel]
    exact (hfebruary htwo).2 (by have := (hfebruary htwo).1; omega)
  · omega

/-! ## Day numbers -/

theorem ofDayNumber_eq (n : Int) :
    ofDayNumber n =
      ofMarch (400 * ((n + cycleStart) / daysPerCycle) +
          (yearDayOf ((n + cycleStart) % daysPerCycle).toNat).1)
        (yearDayOf ((n + cycleStart) % daysPerCycle).toNat).2 := by
  have hyear : ∀ (cycle : Int) (century olympiad year : Nat),
      400 * cycle + (100 * century + 4 * olympiad + year : Nat) =
        400 * cycle + 100 * century + 4 * olympiad + year := by omega
  rw [yearDayOf]
  dsimp only
  rw [hyear]
  rfl

theorem dayNumber_eq (d : Date) :
    d.dayNumber =
      daysPerCycle * (d.marchYear / 400) +
        dayOfCycle (d.marchYear % 400).toNat d.marchDay - cycleStart := by
  simp only [dayNumber, marchYear, marchDay, dayOfCycle]

/-- The day of the cycle of a day number. -/
theorem hasDay_ofDayNumber (n : Int) :
    ∃ (cycle : Int) (years days : Nat), HasDay years days ∧
      ofDayNumber n = ofMarch (400 * cycle + years) days ∧
      n = daysPerCycle * cycle + dayOfCycle years days - cycleStart := by
  have hlt : ((n + cycleStart) % daysPerCycle).toNat < 146097 := by
    unfold daysPerCycle
    omega
  obtain ⟨hday, hhas⟩ := hasDay_of_yearDayOf hlt rfl
  refine ⟨(n + cycleStart) / daysPerCycle, _, _, hhas, ofDayNumber_eq n, ?_⟩
  rw [hday]
  unfold daysPerCycle
  omega

theorem HasDay.isLeapYear {years days : Nat} (h : HasDay years days) (cycle : Int) :
    days = 365 → isLeapYear (400 * cycle + years + 1) := by
  intro heq
  have hleap := isLeapYear_iff.1 (h.2.2 heq)
  rw [isLeapYear_iff]
  omega

theorem isValid_ofDayNumber (n : Int) : (ofDayNumber n).isValid := by
  obtain ⟨cycle, years, days, hday, heq, -⟩ := hasDay_ofDayNumber n
  rw [heq]
  exact isValid_ofMarch hday.2.1 (hday.isLeapYear cycle)

theorem dayNumber_ofDayNumber (n : Int) : (ofDayNumber n).dayNumber = n := by
  obtain ⟨cycle, years, days, hday, heq, hn⟩ := hasDay_ofDayNumber n
  obtain ⟨hyear, hmarch⟩ := march_ofMarch (400 * cycle + years) hday.2.1
  have hlt := hday.1
  have hcycle : (400 * cycle + years) / 400 = cycle := by omega
  have hyears : ((400 * cycle + years) % 400).toNat = years := by omega
  rw [heq, dayNumber_eq, hyear, hmarch, hcycle, hyears, hn]

/-- A date of the calendar is the date of its day number. -/
theorem ofDayNumber_dayNumber {d : Date} (h : d.isValid) : ofDayNumber d.dayNumber = d := by
  obtain ⟨hle, hleap⟩ := marchDay_le h
  have hday : HasDay (d.marchYear % 400).toNat d.marchDay := by
    refine ⟨by omega, hle, fun heq => ?_⟩
    have := isLeapYear_iff.1 (hleap heq)
    rw [isLeapYear_iff]
    omega
  obtain ⟨hlt, hback⟩ := yearDayOf_dayOfCycle hday
  have hcycle : (d.dayNumber + cycleStart) / daysPerCycle = d.marchYear / 400 := by
    rw [dayNumber_eq]
    unfold daysPerCycle
    omega
  have hrest : ((d.dayNumber + cycleStart) % daysPerCycle).toNat =
      dayOfCycle (d.marchYear % 400).toNat d.marchDay := by
    rw [dayNumber_eq]
    unfold daysPerCycle
    omega
  have hyear : 400 * (d.marchYear / 400) + (d.marchYear % 400).toNat = d.marchYear := by omega
  rw [ofDayNumber_eq, hcycle, hrest, hback, hyear]
  exact ofMarch_march h

end PocketShell.Time.Date
