import WireSpec.ByteOrder
/-!
# Hexadecimal text of bytes
-/

namespace WireSpec.Text

def upperDigit (n : Nat) : Char := (Nat.digitChar n).toUpper

/-- Two capital digits. -/
def hexByte (b : UInt8) : String :=
  String.ofList [upperDigit (b.toNat / 16), upperDigit (b.toNat % 16)]

/-- Bytes as a reader sees them: pairs of digits with spaces between them. -/
def hexBytes (bytes : Bytes) : String := " ".intercalate (bytes.map hexByte)

end WireSpec.Text
