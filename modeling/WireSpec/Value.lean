import WireSpec.Decimal.Layout
import WireSpec.Text.Hex
import WireSpec.Text.Quoted
/-!
# Values of fields

What a field of a message holds once it is decoded.  Floats are kept as the bit patterns that came
over the wire, so nothing of them is lost before they are used.
-/

namespace WireSpec

inductive Value where
  | int (kind : IntKind) (number : kind.Number)
  | float32 (bits : UInt32)
  | float64 (bits : UInt64)
  | bool (value : Bool)
  | char (value : Char)
  | string (value : String)
  | bytes (value : Bytes)
  /-- What padding holds. -/
  | null
  deriving DecidableEq

namespace Value

/-! ### Readings -/

/-- The value as an integer: that of a number, the code point of a character, and one for true. -/
def integer? : Value → Option Int
  | int _ x => some x.val
  | bool b => some (if b then 1 else 0)
  | char c => some c.toNat
  | _ => none

/-- The integer reading, where it is one of 64 bits without a sign. -/
def unsigned64? (v : Value) : Option Int :=
  v.integer?.filter fun x => decide (IntKind.u64.Holds x)

/-- The integer reading, where it is one of 64 bits with a sign. -/
def signed64? (v : Value) : Option Int := v.integer?.filter fun x => decide (IntKind.i64.Holds x)

/-- The bit pattern of the double nearest to the value, where it is a number. -/
def double? : Value → Option UInt64
  | float32 bits => some (Binary.widen bits)
  | float64 bits => some bits
  | v => v.integer?.map fun x => (Float.ofInt x).toBits

def string? : Value → Option String
  | string s => some s
  | _ => none

def bytes? : Value → Option Bytes
  | bytes b => some b
  | _ => none

/-! ### Text -/

def text : Value → String
  | int _ x => toString x.val
  | float32 bits =>
      Decimal.Layout.message.text .single (Binary.Format.single.read bits.toNat)
  | float64 bits =>
      Decimal.Layout.message.text .double (Binary.Format.double.read bits.toNat)
  | bool b => toString b
  | char c => c.toString
  | string s => s
  | bytes b => Text.hexBytes b
  | null => "null"

/-- Doubles in JSON always show a point, and an exponent outside of `1e-5` to `1e16`. -/
def jsonDouble : Decimal.Layout where
  plain := some (-5, 16)
  pointZero := true
  plusSign := true
  tie := .toEven

/-- Singles in JSON show an exponent outside of `1e-6` to `1e13`. -/
def jsonSingle : Decimal.Layout := { jsonDouble with plain := some (-6, 13) }

def jsonFloat (layout : Decimal.Layout) (format : Binary.Format) (bits : Nat) : String :=
  match format.read bits with
  | .finite negative significand exponent =>
      layout.text format (.finite negative significand exponent)
  | _ => "null"

/-- The value in JSON.  Bytes are an array of numbers, and what is no number is `null`. -/
def json : Value → String
  | int _ x => toString x.val
  | float32 bits => jsonFloat jsonSingle .single bits.toNat
  | float64 bits => jsonFloat jsonDouble .double bits.toNat
  | bool b => toString b
  | char c => Text.jsonString c.toString
  | string s => Text.jsonString s
  | bytes b => "[" ++ ",".intercalate (b.map fun x => toString x.toNat) ++ "]"
  | null => "null"

/-! ### Equality of readings -/

/-- Values that read the same.  A NaN reads as nothing, and so agrees with no value. -/
def agrees : Value → Value → Bool
  | float32 a, float32 b => Float32.ofBits a == Float32.ofBits b
  | float64 a, float64 b => Float.ofBits a == Float.ofBits b
  | a, b => a == b

end Value

/-- Values by field name, in the order of the fields. -/
abbrev Record : Type := List (String × Value)

namespace Record

/-- Records with the same fields whose values agree. -/
def agrees (a b : Record) : Bool :=
  a.length == b.length &&
    (a.zip b).all fun ((m, v), (n, w)) => m == n && v.agrees w

end Record

end WireSpec
