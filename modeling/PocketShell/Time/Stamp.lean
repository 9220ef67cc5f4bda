import PocketShell.Text
import PocketShell.Time.Calendar

/-!
# Instants as a clock shows them

A `Stamp` is an instant to the nanosecond together with the offset from UTC at which it is shown.
The clock of the shell stands at offset zero; other offsets come from saved sessions.
-/

namespace PocketShell.Time

/-- Seconds in a day. -/
def secondsPerDay : Int := 86400

/-- Nanoseconds in a second. -/
def nanosPerSecond : Nat := 1000000000

/-- An instant and the offset at which it is shown. -/
structure Stamp where
  /-- Whole seconds since 1970-01-01T00:00:00Z, rounded down. -/
  seconds : Int
  nanos : Nat
  /-- Seconds east of UTC. -/
  offset : Int
  nanos_lt : nanos < nanosPerSecond := by decide
  deriving DecidableEq, Repr

namespace Stamp

/-- The instant a number of nanoseconds after 1970-01-01T00:00:00Z, at UTC. -/
def ofNanoseconds (nanoseconds : Int) : Stamp where
  seconds := nanoseconds / nanosPerSecond
  nanos := (nanoseconds % nanosPerSecond).toNat
  offset := 0
  nanos_lt := by unfold nanosPerSecond; omega

/-- The instant as a clock at UTC shows it. -/
def utc (s : Stamp) : Stamp :=
  { s with offset := 0 }

/-- Seconds of the local clock since 1970-01-01T00:00:00. -/
def localSeconds (s : Stamp) : Int :=
  s.seconds + s.offset

/-- The local date. -/
def date (s : Stamp) : Date :=
  .ofDayNumber (s.localSeconds / secondsPerDay)

/-- Seconds since local midnight. -/
def secondOfDay (s : Stamp) : Nat :=
  (s.localSeconds % secondsPerDay).toNat

def hour (s : Stamp) : Nat := s.secondOfDay / 3600

def minute (s : Stamp) : Nat := s.secondOfDay / 60 % 60

def second (s : Stamp) : Nat := s.secondOfDay % 60

/-- A year in four digits, with a minus sign in front of a year before 0000. -/
def yearText (year : Int) : String :=
  (if year < 0 then "-" else "") ++ Text.digits 4 year.natAbs

/-- The date as `year-month-day`. -/
def dateText (s : Stamp) : String :=
  yearText s.date.year ++ "-" ++ Text.digits 2 s.date.month ++ "-" ++ Text.digits 2 s.date.day

/-- Date and minute, as a long listing shows them. -/
def listing (s : Stamp) : String :=
  s.dateText ++ " " ++ Text.digits 2 s.hour ++ ":" ++ Text.digits 2 s.minute

/-- Time of day, as the process table shows it. -/
def clock (s : Stamp) : String :=
  Text.digits 2 s.hour ++ ":" ++ Text.digits 2 s.minute ++ ":" ++ Text.digits 2 s.second

end Stamp

end PocketShell.Time
