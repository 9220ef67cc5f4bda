import PocketShell.Time.Stamp

/-!
# Stamps in the notation of RFC 3339

Writing gives each stamp one text: the shortest fraction, `Z` for offset zero. It is refused for a
year outside 0000 to 9999 and for an offset that is not a whole number of minutes below a day.
Reading is wider: it takes any one octet between date and time, either case of `Z`, digits beyond
the ninth of the fraction (which are dropped), and a leap second where one can stand, which is read
as the last nanosecond before it.
-/

namespace PocketShell.Time.Rfc3339

/-! ## Writing -/

/-- The digits of a fraction of a second, without trailing zeros. -/
def fractionDigits (nanos : Nat) : List Char :=
  Text.dropTail (· == '0') (Text.digits 9 nanos).toList

/-- The fraction of a second, left out when it is zero. -/
def fractionText (nanos : Nat) : String :=
  if nanos = 0 then "" else "." ++ String.ofList (fractionDigits nanos)

/-- The offset in hours and minutes. -/
def offsetText (offset : Int) : String :=
  if offset = 0 then "Z"
  else
    (if offset < 0 then "-" else "+") ++ Text.digits 2 (offset.natAbs / 3600) ++ ":" ++
      Text.digits 2 (offset.natAbs / 60 % 60)

/-- Whether the notation has a text for the stamp. -/
def isWritable (s : Stamp) : Bool :=
  0 ≤ s.date.year && s.date.year ≤ 9999 && s.offset.natAbs < 86400 && s.offset.natAbs % 60 == 0

/-- The text of a stamp. -/
def write? (s : Stamp) : Option String :=
  if isWritable s then
    some (s.dateText ++ "T" ++ s.clock ++ fractionText s.nanos ++ offsetText s.offset)
  else none

/-! ## Reading -/

/-- A run of exactly `count` digits and what follows it. -/
def takeDigits? (count : Nat) (cs : List Char) : Option (Nat × List Char) :=
  if (cs.take count).length = count then
    (Text.number? Text.digit? 10 (cs.take count)).map (·, cs.drop count)
  else none

/-- What follows the character `c`. -/
def after? (c : Char) : List Char → Option (List Char)
  | d :: rest => if d = c then some rest else none
  | [] => none

/-- Three numbers with `mark` between them, the first of `width` digits and the others of two. -/
def takeTriple? (width : Nat) (mark : Char) (cs : List Char) :
    Option ((Nat × Nat × Nat) × List Char) := do
  let (a, cs) ← takeDigits? width cs
  let (b, cs) ← takeDigits? 2 (← after? mark cs)
  let (c, cs) ← takeDigits? 2 (← after? mark cs)
  pure ((a, b, c), cs)

/-- What follows the one octet between date and time. -/
def afterSeparator? : List Char → Option (List Char)
  | c :: rest => if c.toNat < 0x80 then some rest else none
  | [] => none

/-- The fraction of a second in nanoseconds, rounded down; absent, it is zero. -/
def takeFraction? : List Char → Option (Nat × List Char)
  | '.' :: rest => do
    let run := rest.takeWhile Char.isDigit
    if run.isEmpty then none
    else
      let nanos ← Text.number? Text.digit? 10 ((run ++ List.replicate 9 '0').take 9)
      pure (nanos, rest.dropWhile Char.isDigit)
  | rest => some (0, rest)

/-- The offset in seconds, which ends the text. -/
def offset? : List Char → Option Int
  | ['Z'] | ['z'] => some 0
  | sign :: rest => do
    let sign : Int ← if sign = '+' then some 1 else if sign = '-' then some (-1) else none
    let (hours, rest) ← takeDigits? 2 rest
    let (minutes, rest) ← takeDigits? 2 (← after? ':' rest)
    if rest.isEmpty && hours < 24 && minutes < 60 then
      pure (sign * (3600 * hours + 60 * minutes : Nat))
    else none
  | [] => none

/-- Whether the stamp lies in the second before which a leap second can be inserted: the last
second, in UTC, of the last day of a month. -/
def isBeforeLeapSecond (s : Stamp) : Bool :=
  let utc := s.utc
  utc.secondOfDay == 86399 && utc.date.day == daysInMonth utc.date.year utc.date.month

/-- The stamp that a local date, a time of day and an offset denote. -/
def stamp? (date : Date) (hour minute second nanos : Nat) (offset : Int) : Option Stamp :=
  if h : nanos < nanosPerSecond then
    if date.isValid && hour < 24 && minute < 60 && second < 60 then
      let sinceMidnight : Nat := 3600 * hour + 60 * minute + second
      some
        { seconds := secondsPerDay * date.dayNumber + sinceMidnight - offset
          nanos, offset, nanos_lt := h }
    else none
  else none

/-- The stamp that a text denotes. -/
def read? (text : String) : Option Stamp := do
  let ((year, month, day), cs) ← takeTriple? 4 '-' text.toList
  let ((hour, minute, second), cs) ← takeTriple? 2 ':' (← afterSeparator? cs)
  let (nanos, cs) ← takeFraction? cs
  let offset ← offset? cs
  let date : Date := ⟨year, month, day⟩
  if second = 60 then
    let s ← stamp? date hour minute 59 999999999 offset
    if isBeforeLeapSecond s then pure s else none
  else stamp? date hour minute second nanos offset

end PocketShell.Time.Rfc3339
