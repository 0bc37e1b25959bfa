/-!
# Reading numerals

The value of a digit, and of digits that are written in a base.
-/

namespace WireSpec.Text

/-- Letters of either case count on from ten. -/
def digitValue (c : Char) : Nat :=
  if c.isDigit then c.toNat - '0'.toNat
  else if c.isUpper then c.toNat - 'A'.toNat + 10
  else if c.isLower then c.toNat - 'a'.toNat + 10
  else 36

/-- The value of digits written in a base, where all of them are digits of that base. -/
def numeral? (base : Nat) (digits : List Char) : Option Nat :=
  if digits.all fun c => decide (digitValue c < base) then
    some (digits.foldl (fun n c => n * base + digitValue c) 0)
  else none

end WireSpec.Text
