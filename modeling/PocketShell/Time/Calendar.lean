/-!
# The civil calendar

Dates of the proleptic Gregorian calendar and their day numbers, counted from 1970-01-01. A year is
taken to begin on 1 March, so that the leap day is the last day of its year and the cycles of four,
one hundred and four hundred years all end with it.
-/

namespace PocketShell.Time

/-- A day of the proleptic Gregorian calendar. -/
structure Date where
  year : Int
  /-- From 1 to 12. -/
  month : Nat
  /-- From 1 to the length of the month. -/
  day : Nat
  deriving DecidableEq, Repr

/-- Every fourth year, of the full centuries only every fourth. -/
def isLeapYear (year : Int) : Bool :=
  year % 4 == 0 && (year % 100 != 0 || year % 400 == 0)

/-- The number of days in a month. -/
def daysInMonth (year : Int) (month : Nat) : Nat :=
  match month with
  | 2 => if isLeapYear year then 29 else 28
  | 4 | 6 | 9 | 11 => 30
  | _ => 31

namespace Date

/-- Whether the date is in the calendar. -/
def isValid (d : Date) : Bool :=
  1 ≤ d.month && d.month ≤ 12 && 1 ≤ d.day && d.day ≤ daysInMonth d.year d.month

/-- Days in a cycle of four hundred years. -/
def daysPerCycle : Int := 146097

/-- The day number of 0000-03-01, negated. -/
def cycleStart : Int := 719468

/-- The date with the given number of days after 1970-01-01. -/
def ofDayNumber (n : Int) : Date :=
  let fromStart := n + cycleStart
  let cycle := fromStart / daysPerCycle
  let dayOfCycle := (fromStart % daysPerCycle).toNat
  let century := min (dayOfCycle / 36524) 3
  let dayOfCentury := dayOfCycle - 36524 * century
  let olympiad := dayOfCentury / 1461
  let dayOfOlympiad := dayOfCentury - 1461 * olympiad
  let yearOfOlympiad := min (dayOfOlympiad / 365) 3
  let dayOfYear := dayOfOlympiad - 365 * yearOfOlympiad
  let monthFromMarch := (5 * dayOfYear + 2) / 153
  let day := dayOfYear - (153 * monthFromMarch + 2) / 5 + 1
  let year := 400 * cycle + 100 * century + 4 * olympiad + yearOfOlympiad
  if monthFromMarch < 10 then ⟨year, monthFromMarch + 3, day⟩
  else ⟨year + 1, monthFromMarch - 9, day⟩

/-- The number of days from 1970-01-01 to the date. -/
def dayNumber (d : Date) : Int :=
  let year := if d.month ≤ 2 then d.year - 1 else d.year
  let cycle := year / 400
  let yearOfCycle := (year % 400).toNat
  let monthFromMarch := if d.month ≤ 2 then d.month + 9 else d.month - 3
  let dayOfYear := (153 * monthFromMarch + 2) / 5 + (d.day - 1)
  let dayOfCycle := 365 * yearOfCycle + yearOfCycle / 4 - yearOfCycle / 100 + dayOfYear
  daysPerCycle * cycle + dayOfCycle - cycleStart

end Date

end PocketShell.Time
