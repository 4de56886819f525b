/-!
# Whole numbers of 64 bits

The decimal text of a signed whole number: an optional sign and at least one
digit, with a value that 64 bits can hold.
-/

namespace LuaTree.Text

/-- Whether 64 bits hold the number, with its sign. -/
def fitsInt64 (n : Int) : Bool :=
  -0x8000000000000000 ≤ n && n < 0x8000000000000000

/-- The number that digits write; none without a digit or with any other character. -/
def digitsValue? (digits : List Char) : Option Nat :=
  if digits.isEmpty || !digits.all Char.isDigit then none
  else some (digits.foldl (fun n c => 10 * n + (c.toNat - '0'.toNat)) 0)

/-- The number with its sign, whatever its size. -/
def signedValue? : List Char → Option Int
  | '-' :: digits => (digitsValue? digits).map fun n => -(n : Int)
  | '+' :: digits => (digitsValue? digits).map fun n => (n : Int)
  | digits => (digitsValue? digits).map fun n => (n : Int)

/-- Read a whole number of 64 bits. -/
def int64? (text : String) : Option Int :=
  (signedValue? text.toList).filter fitsInt64

end LuaTree.Text
