/-!
# Words, fields and bytes

Text is `String` throughout. What the shell needs of it is small: the words of a line, the fields
between separators, the text without its outer blanks, padding to a width, and the UTF-8 octets
that a file holds. Blanks are the characters with the Unicode property White_Space, so a line is
cut at a no-break space as well as at a tab.
-/

namespace PocketShell.Text

/-- Whether a character has the Unicode property White_Space. -/
def isBlank (c : Char) : Bool :=
  let n := c.toNat
  (0x09 ≤ n && n ≤ 0x0D) || n == 0x20 || n == 0x85 || n == 0xA0 || n == 0x1680 ||
    (0x2000 ≤ n && n ≤ 0x200A) || n == 0x2028 || n == 0x2029 || n == 0x202F || n == 0x205F ||
    n == 0x3000

/-- The non-empty stretches between separators, in order. -/
def fields (separator : Char → Bool) (text : String) : List String :=
  ((text.toList.splitOnP separator).filter (!·.isEmpty)).map String.ofList

/-- The words of a line: its non-empty stretches between blanks. -/
def words (line : String) : List String :=
  fields isBlank line

/-- A list without its longest tail of elements that satisfy `p`. -/
def dropTail {α : Type} (p : α → Bool) (xs : List α) : List α :=
  (xs.reverse.dropWhile p).reverse

/-- The text without the blanks at its two ends. -/
def trim (text : String) : String :=
  String.ofList (dropTail isBlank (text.toList.dropWhile isBlank))

/-- Whether `text` begins with the characters of `start`. -/
def hasPrefix (text start : String) : Bool :=
  start.toList.isPrefixOf text.toList

/-- Whether `text` begins with the character `c`. -/
def beginsWith (text : String) (c : Char) : Bool :=
  text.toList.head? == some c

/-- The texts one after another with `separator` between each two. -/
def join (separator : String) (texts : List String) : String :=
  String.intercalate separator texts

/-- The text followed by as many spaces as bring it to `width` characters. -/
def padRight (width : Nat) (text : String) : String :=
  text ++ String.ofList (List.replicate (width - text.length) ' ')

/-- The text after as many fill characters as bring it to `width` characters. -/
def padLeft (width : Nat) (fill : Char) (text : String) : String :=
  String.ofList (List.replicate (width - text.length) fill) ++ text

/-- The decimal digits of a number, with zeros in front up to `width` digits. -/
def digits (width n : Nat) : String :=
  padLeft width '0' (String.ofList (Nat.toDigits 10 n))

/-- A number in decimal digits, without leading zeros. -/
def decimal (n : Nat) : String :=
  digits 1 n

/-- The value of an ASCII decimal digit. -/
def digit? (c : Char) : Option Nat :=
  if c.isDigit then some (c.toNat - '0'.toNat) else none

/-- The value of an ASCII hexadecimal digit, in either case. -/
def hexDigit? (c : Char) : Option Nat :=
  if c.isDigit then some (c.toNat - '0'.toNat)
  else if 'a' ≤ c ∧ c ≤ 'f' then some (c.toNat - 'a'.toNat + 10)
  else if 'A' ≤ c ∧ c ≤ 'F' then some (c.toNat - 'A'.toNat + 10)
  else none

/-- The number that a non-empty run of digits denotes in base `base`. -/
def number? (digit? : Char → Option Nat) (base : Nat) (cs : List Char) : Option Nat :=
  if cs.isEmpty then none
  else cs.foldlM (fun n c => (digit? c).map (n * base + ·)) 0

/-- The UTF-8 octets of a text. -/
def utf8 (text : String) : List UInt8 :=
  text.toByteArray.data.toList

/-- The text whose UTF-8 octets these are, if they are well formed. -/
def ofUtf8? (octets : List UInt8) : Option String :=
  String.fromUTF8? ⟨octets.toArray⟩

end PocketShell.Text
