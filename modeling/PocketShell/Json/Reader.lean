import PocketShell.Text
import PocketShell.Json.Value

/-!
# Reading JSON

The reader takes exactly the grammar of RFC 8259, with two limits: arrays and objects nest at most
`maxNesting` deep, and a number may not be too large for a double. Escapes of surrogates have to
come in pairs. All of the text has to be one value.
-/

namespace PocketShell.Json

/-- Deepest nesting of arrays and objects. -/
def maxNesting : Nat := 127

/-- The blanks that may stand between tokens. -/
def isSpace (c : Char) : Bool :=
  c == ' ' || c == '\t' || c == '\n' || c == '\r'

def skipSpace (cs : List Char) : List Char :=
  cs.dropWhile isSpace

/-! ## Strings -/

/-- The value of four hexadecimal digits, and what follows them. -/
def hexWord? (cs : List Char) : Option (Nat × List Char) :=
  if (cs.take 4).length = 4 then
    (Text.number? Text.hexDigit? 16 (cs.take 4)).map (·, cs.drop 4)
  else none

/-- The character of a pair of surrogates, the second given by an escape of its own. -/
def surrogatePair? (high : Nat) : List Char → Option (Char × List Char)
  | '\\' :: 'u' :: cs => do
    let (low, cs) ← hexWord? cs
    if 0xDC00 ≤ low ∧ low < 0xE000 then
      pure (Char.ofNat (0x10000 + (high - 0xD800) * 0x400 + (low - 0xDC00)), cs)
    else none
  | _ => none

/-- The character that an escape denotes, read after its backslash. -/
def unescape? : List Char → Option (Char × List Char)
  | 'u' :: cs => do
    let (word, cs) ← hexWord? cs
    if 0xD800 ≤ word ∧ word < 0xDC00 then surrogatePair? word cs
    else if 0xDC00 ≤ word ∧ word < 0xE000 then none
    else pure (Char.ofNat word, cs)
  | c :: cs =>
    match c with
    | '"' => some ('"', cs)
    | '\\' => some ('\\', cs)
    | '/' => some ('/', cs)
    | 'b' => some ('\x08', cs)
    | 'f' => some ('\x0C', cs)
    | 'n' => some ('\x0A', cs)
    | 'r' => some ('\x0D', cs)
    | 't' => some ('\x09', cs)
    | _ => none
  | [] => none

/-- The characters of a string, read after its opening quote, and what follows its closing one.
The first argument bounds the number of characters. -/
def readString? : Nat → List Char → Option (List Char × List Char)
  | 0, _ => none
  | _ + 1, [] => none
  | fuel + 1, c :: cs =>
    if c = '"' then some ([], cs)
    else if c = '\\' then do
      let (d, cs) ← unescape? cs
      let (text, rest) ← readString? fuel cs
      pure (d :: text, rest)
    else if c.toNat < 0x20 then none
    else do
      let (text, rest) ← readString? fuel cs
      pure (c :: text, rest)

/-! ## Numbers -/

/-- The parts of a number: sign, digits before and after the point, and exponent. -/
structure Numeral where
  negative : Bool
  whole : List Char
  fraction : Option (List Char)
  exponent : Option (Bool × List Char)

/-- The number that decimal digits denote. -/
def digitsValue (cs : List Char) : Nat :=
  cs.foldl (fun n c => n * 10 + (c.toNat - '0'.toNat)) 0

/-- Whether a significand times a power of ten rounds to no finite double. -/
def exceedsDouble (significand : Nat) (exponent : Int) : Bool :=
  if significand = 0 then false
  else
    let magnitude : Int := (Nat.toDigits 10 significand).length + exponent
    if magnitude < 308 then false
    else if 310 < magnitude then true
    else
      let limit := Nat.pow 2 1024 - Nat.pow 2 970
      limit * Nat.pow 10 (-exponent).toNat ≤ significand * Nat.pow 10 exponent.toNat

/-- Whether a number is too large for a double. -/
def Numeral.isTooLarge (n : Numeral) : Bool :=
  let fraction := n.fraction.getD []
  let exponent : Int := match n.exponent with
    | none => 0
    | some (true, ds) => -(digitsValue ds : Int)
    | some (false, ds) => digitsValue ds
  exceedsDouble (digitsValue (n.whole ++ fraction)) (exponent - fraction.length)

/-- Digits after a point, if there is one: none is read as absent, and a point needs a digit. -/
def readFraction? : List Char → Option (Option (List Char) × List Char)
  | '.' :: cs =>
    let ds := cs.takeWhile Char.isDigit
    if ds.isEmpty then none else some (some ds, cs.dropWhile Char.isDigit)
  | cs => some (none, cs)

/-- The exponent, if there is one: whether it is negative, and its digits. -/
def readExponent? : List Char → Option (Option (Bool × List Char) × List Char)
  | c :: cs =>
    if c = 'e' ∨ c = 'E' then
      let (negative, cs) := match cs with
        | '-' :: cs => (true, cs)
        | '+' :: cs => (false, cs)
        | cs => (false, cs)
      let ds := cs.takeWhile Char.isDigit
      if ds.isEmpty then none else some (some (negative, ds), cs.dropWhile Char.isDigit)
    else some (none, c :: cs)
  | [] => some (none, [])

/-- The parts of the number at the head of a text. A leading zero stands alone. -/
def readNumeral? (cs : List Char) : Option (Numeral × List Char) := do
  let (negative, cs) := match cs with
    | '-' :: cs => (true, cs)
    | cs => (false, cs)
  let whole := cs.takeWhile Char.isDigit
  if whole.isEmpty || (whole.length > 1 && whole.head? == some '0') then none
  let (fraction, cs) ← readFraction? (cs.dropWhile Char.isDigit)
  let (exponent, cs) ← readExponent? cs
  pure ({ negative, whole, fraction, exponent }, cs)

/-- The literal of a number, written from its parts. -/
def Numeral.literal (n : Numeral) : List Char :=
  (if n.negative then ['-'] else []) ++ n.whole ++ (n.fraction.elim [] ('.' :: ·)) ++
    (n.exponent.elim [] fun (negative, ds) => 'e' :: (if negative then '-' :: ds else ds))

/-- The value of a number. An integer that fits a word is kept as one, but not `-0`. -/
def Numeral.value? (n : Numeral) : Option Value :=
  let magnitude : Int := digitsValue n.whole
  let integer := if n.negative then -magnitude else magnitude
  if n.fraction.isNone && n.exponent.isNone && fitsWord integer &&
      !(n.negative && magnitude == 0) then
    some (.integer integer)
  else if n.isTooLarge then none
  else some (.number (String.ofList n.literal))

/-! ## Values -/

/-- What follows the characters `word`. -/
def after? (word cs : List Char) : Option (List Char) :=
  if word.isPrefixOf cs then some (cs.drop word.length) else none

mutual

/-- The value at the head of a text, which begins with no blank. The first argument bounds the
number of steps and the second the nesting that is left. -/
def readValue? : Nat → Nat → List Char → Option (Value × List Char)
  | 0, _, _ => none
  | _ + 1, _, [] => none
  | fuel + 1, nesting, c :: cs =>
    if c = '"' then
      (readString? fuel cs).map fun (text, rest) => (.string (String.ofList text), rest)
    else if c = '[' then
      match nesting with
      | 0 => none
      | nesting + 1 =>
        match skipSpace cs with
        | ']' :: rest => some (.array [], rest)
        | cs => do
          let (item, rest) ← readValue? fuel nesting cs
          let (items, rest) ← readItems? fuel nesting (skipSpace rest)
          pure (.array (item :: items), rest)
    else if c = '\x7b' then
      match nesting with
      | 0 => none
      | nesting + 1 =>
        match skipSpace cs with
        | '\x7d' :: rest => some (.object [], rest)
        | cs => do
          let (first, rest) ← readMember? fuel nesting cs
          let (members, rest) ← readMembers? fuel nesting (skipSpace rest)
          pure (.object (first :: members), rest)
    else if c = 'n' then (after? ['u', 'l', 'l'] cs).map (.null, ·)
    else if c = 't' then (after? ['r', 'u', 'e'] cs).map (.boolean true, ·)
    else if c = 'f' then (after? ['a', 'l', 's', 'e'] cs).map (.boolean false, ·)
    else do
      let (numeral, rest) ← readNumeral? (c :: cs)
      pure (← numeral.value?, rest)

/-- The items of an array after the first, up to its closing bracket. -/
def readItems? : Nat → Nat → List Char → Option (List Value × List Char)
  | 0, _, _ => none
  | fuel + 1, nesting, cs =>
    match cs with
    | ']' :: rest => some ([], rest)
    | ',' :: rest => do
      let (item, rest) ← readValue? fuel nesting (skipSpace rest)
      let (items, rest) ← readItems? fuel nesting (skipSpace rest)
      pure (item :: items, rest)
    | _ => none

/-- A member of an object: a key, a colon and a value. -/
def readMember? : Nat → Nat → List Char → Option ((String × Value) × List Char)
  | 0, _, _ => none
  | fuel + 1, nesting, cs =>
    match cs with
    | '"' :: cs => do
      let (key, cs) ← readString? fuel cs
      match skipSpace cs with
      | ':' :: cs =>
        let (value, rest) ← readValue? fuel nesting (skipSpace cs)
        pure ((String.ofList key, value), rest)
      | _ => none
    | _ => none

/-- The members of an object after the first, up to its closing brace. -/
def readMembers? : Nat → Nat → List Char → Option (List (String × Value) × List Char)
  | 0, _, _ => none
  | fuel + 1, nesting, cs =>
    match cs with
    | '\x7d' :: rest => some ([], rest)
    | ',' :: rest => do
      let (first, rest) ← readMember? fuel nesting (skipSpace rest)
      let (members, rest) ← readMembers? fuel nesting (skipSpace rest)
      pure (first :: members, rest)
    | _ => none

end

/-- The value that a text denotes. -/
def read? (text : String) : Option Value := do
  let cs := text.toList
  let (value, rest) ← readValue? (2 * cs.length + 2) maxNesting (skipSpace cs)
  if (skipSpace rest).isEmpty then pure value else none

end PocketShell.Json
