import PocketShell.Text
import PocketShell.Json.Value

/-!
# Writing JSON

Values are written without blanks. In a string the quote, the backslash and the control characters
are escaped, the five that have a short escape by it and the others by four hexadecimal digits;
every other character stands for itself.
-/

namespace PocketShell.Json

/-- The lower-case hexadecimal digit of a number below sixteen. -/
def hexDigit (n : Nat) : Char :=
  Nat.digitChar n

/-- A character as it stands in a string. -/
def escape (c : Char) : List Char :=
  if c = '"' then ['\\', '"']
  else if c = '\\' then ['\\', '\\']
  else if c = '\x08' then ['\\', 'b']
  else if c = '\x09' then ['\\', 't']
  else if c = '\x0A' then ['\\', 'n']
  else if c = '\x0C' then ['\\', 'f']
  else if c = '\x0D' then ['\\', 'r']
  else if c.toNat < 0x20 then
    ['\\', 'u', '0', '0', hexDigit (c.toNat / 16), hexDigit (c.toNat % 16)]
  else [c]

/-- A text in quotes. -/
def quote (text : String) : List Char :=
  '"' :: (text.toList.flatMap escape ++ ['"'])

/-- An integer in decimal digits. -/
def integerText (n : Int) : List Char :=
  if n < 0 then '-' :: Nat.toDigits 10 n.natAbs else Nat.toDigits 10 n.natAbs

mutual

/-- The characters of a value. -/
def writeValue : Value → List Char
  | .null => ['n', 'u', 'l', 'l']
  | .boolean true => ['t', 'r', 'u', 'e']
  | .boolean false => ['f', 'a', 'l', 's', 'e']
  | .integer n => integerText n
  | .number literal => literal.toList
  | .string text => quote text
  | .array [] => ['[', ']']
  | .array (item :: items) => '[' :: (writeValue item ++ writeItems items ++ [']'])
  | .object [] => ['\x7b', '\x7d']
  | .object ((key, value) :: members) =>
    '\x7b' :: (quote key ++ ':' :: writeValue value ++ writeMembers members ++ ['\x7d'])

/-- The items after the first, each behind a comma. -/
def writeItems : List Value → List Char
  | [] => []
  | item :: items => ',' :: writeValue item ++ writeItems items

/-- The members after the first, each behind a comma. -/
def writeMembers : List (String × Value) → List Char
  | [] => []
  | (key, value) :: members =>
    ',' :: (quote key ++ ':' :: writeValue value ++ writeMembers members)

end

/-- The text of a value. -/
def write (value : Value) : String :=
  String.ofList (writeValue value)

end PocketShell.Json
