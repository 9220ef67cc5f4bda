import PocketShell.Text

/-!
# What scalars mean

A quoted scalar or a block is text. A plain scalar is null, a boolean or a number if it is spelled
like one, and text otherwise. Only the lower-case spellings of the booleans count, and of null that,
the upper-case one, the tilde and the empty scalar.
-/

namespace PocketShell.Yaml

/-- What a scalar means. A number is kept as it is spelled. -/
inductive Scalar where
  | null
  | boolean (value : Bool)
  | number (text : String)
  | string (text : String)
  deriving DecidableEq, Repr

namespace Scalar

/-! ## Numbers -/

/-- An optional sign, of which it says whether it is a minus, and the characters behind it. -/
def splitSign : List Char → Bool × List Char
  | '-' :: cs => (true, cs)
  | '+' :: cs => (false, cs)
  | cs => (false, cs)

/-- Whether the characters spell a number of 64 bits in base `base`, with a sign or without. -/
def isInteger (base : Nat) (cs : List Char) : Bool :=
  let (negative, digits) := splitSign cs
  let digit? (c : Char) : Option Nat := (Text.hexDigit? c).filter (· < base)
  match Text.number? digit? base digits with
  | some n => if negative then n ≤ 0x8000000000000000 else n < 0x8000000000000000
  | none => false

/-- Whether the characters are a fraction: digits with at most one point among them. -/
def isFraction (cs : List Char) : Bool :=
  let whole := cs.takeWhile Char.isDigit
  match cs.drop whole.length with
  | [] => !whole.isEmpty
  | '.' :: places => places.all Char.isDigit && !(whole.isEmpty && places.isEmpty)
  | _ => false

/-- Whether the characters are digits, with a sign or without. -/
def isExponent (cs : List Char) : Bool :=
  let digits := (splitSign cs).2
  !digits.isEmpty && digits.all Char.isDigit

/-- Whether the characters spell a decimal number, with or without an exponent. -/
def isDecimal (cs : List Char) : Bool :=
  let unsigned := (splitSign cs).2
  let isMark (c : Char) : Bool := c == 'e' || c == 'E'
  let fraction := unsigned.takeWhile (!isMark ·)
  match unsigned.drop fraction.length with
  | [] => isFraction fraction
  | _ :: exponent => isFraction fraction && isExponent exponent

/-- The spellings of the infinities and of what is not a number. -/
def specialNumbers : List String :=
  [".inf", ".Inf", ".INF", "+.inf", "+.Inf", "+.INF", "-.inf", "-.Inf", "-.INF",
    ".nan", ".NaN", ".NAN"]

/-- Whether a text spells a number with a point, an exponent or a special value. -/
def isFloat (text : String) : Bool :=
  specialNumbers.contains text || isDecimal text.toList

/-- Whether a text spells a number. Behind a base or a plus, a sign of the number itself may
stand. -/
def isNumber (text : String) : Bool :=
  let cs := text.toList
  (match cs with
    | '0' :: 'x' :: digits => isInteger 16 digits
    | '0' :: 'o' :: digits => isInteger 8 digits
    | '+' :: digits => isInteger 10 digits
    | _ => false) ||
    isInteger 10 cs || isFloat text

/-! ## Plain scalars -/

/-- What a plain scalar without a tag means. -/
def ofPlain (text : String) : Scalar :=
  if ["~", "null", "NULL", ""].contains text then null
  else if text = "true" then boolean true
  else if text = "false" then boolean false
  else if isNumber text then number text
  else string text

/-- What a plain scalar means as a value of the named kind, if it can be one. -/
def ofPlainAs? (kind text : String) : Option Scalar :=
  match kind with
  | "bool" =>
    if text = "true" then some (boolean true)
    else if text = "false" then some (boolean false)
    else none
  | "int" => if isInteger 10 text.toList then some (number text) else none
  | "float" => if isFloat text then some (number text) else none
  | "null" => if ["~", "null"].contains text then some null else none
  | "str" => some (string text)
  | _ => none

end Scalar

end PocketShell.Yaml
