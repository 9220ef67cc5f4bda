/-!
# JSON values

Objects keep their members in the order written, repeated keys included. An integer that fits in
64 bits, signed or unsigned, is kept as a number; any other number is kept as its literal, since
nothing here computes with it.
-/

namespace PocketShell.Json

/-- A JSON value. -/
inductive Value where
  | null
  | boolean (value : Bool)
  | integer (value : Int)
  | number (literal : String)
  | string (text : String)
  | array (items : List Value)
  | object (members : List (String × Value))
  deriving Repr

/-- Whether an integer fits in 64 bits, signed or unsigned. -/
def fitsWord (n : Int) : Bool :=
  -0x8000000000000000 ≤ n && n < 0x10000000000000000

end PocketShell.Json
