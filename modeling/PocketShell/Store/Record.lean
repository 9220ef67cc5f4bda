import PocketShell.Text

/-!
# The stored record

A stored session is a record of three fields: the user, the time at which it was saved in seconds
since 1970, and the snapshot. Numbers take one octet below 251; larger ones take two, four or eight
octets, the lowest first, behind one that tells how many. Signed numbers alternate between the two
signs, and a text is the number of its UTF-8 octets and the octets.
-/

namespace PocketShell.Store

/-- What is stored of a session. -/
structure Record where
  user : String
  seconds : Int
  snapshot : String
  deriving DecidableEq, Repr

namespace Record

/-! ## Writing -/

/-- The lowest `width` octets of a number, the lowest first. -/
def littleEndian : Nat → Nat → List UInt8
  | 0, _ => []
  | width + 1, n => UInt8.ofNat (n % 256) :: littleEndian width (n / 256)

/-- A number below 2^64. -/
def writeNumber (n : Nat) : List UInt8 :=
  if n < 251 then [UInt8.ofNat n]
  else if n < 0x10000 then 251 :: littleEndian 2 n
  else if n < 0x100000000 then 252 :: littleEndian 4 n
  else 253 :: littleEndian 8 n

/-- The place of a signed number in the order 0, -1, 1, -2, 2, … -/
def zigzag : Int → Nat
  | .ofNat n => 2 * n
  | .negSucc n => 2 * n + 1

/-- A text behind the number of its octets. -/
def writeText (text : String) : List UInt8 :=
  let octets := Text.utf8 text
  writeNumber octets.length ++ octets

/-- The octets of a record. -/
def write (record : Record) : List UInt8 :=
  writeText record.user ++ writeNumber (zigzag record.seconds) ++ writeText record.snapshot

/-! ## Reading -/

/-- The first `n` octets and the others, if there are that many. -/
def take? (n : Nat) (octets : List UInt8) : Option (List UInt8 × List UInt8) :=
  if n ≤ octets.length then some (octets.splitAt n) else none

/-- The number that octets denote, the lowest first. -/
def ofLittleEndian : List UInt8 → Nat
  | [] => 0
  | octet :: octets => octet.toNat + 256 * ofLittleEndian octets

/-- How many octets follow the first one of a number, if it is no number by itself. -/
def width? (first : UInt8) : Option Nat :=
  if first < 251 then some 0
  else if first = 251 then some 2
  else if first = 252 then some 4
  else if first = 253 then some 8
  else none

/-- A number at the start of some octets, and the others. More octets than it needs are allowed. -/
def readNumber? : List UInt8 → Option (Nat × List UInt8)
  | [] => none
  | first :: octets =>
    match width? first with
    | none => none
    | some 0 => some (first.toNat, octets)
    | some width => (take? width octets).map fun (number, rest) => (ofLittleEndian number, rest)

/-- The signed number in a place of the order 0, -1, 1, -2, 2, … -/
def unzigzag (n : Nat) : Int :=
  if n % 2 = 0 then .ofNat (n / 2) else .negSucc (n / 2)

/-- A text at the start of some octets, and the others. -/
def readText? (octets : List UInt8) : Option (String × List UInt8) := do
  let (length, octets) ← readNumber? octets
  let (text, rest) ← take? length octets
  pure (← Text.ofUtf8? text, rest)

/-- The record at the start of some octets. What follows it is passed over. -/
def read? (octets : List UInt8) : Option Record := do
  let (user, octets) ← readText? octets
  let (seconds, octets) ← readNumber? octets
  let (snapshot, _) ← readText? octets
  pure ⟨user, unzigzag seconds, snapshot⟩

end Record

end PocketShell.Store
