import WireSpec.Int128
import WireSpec.Text.Encoding
import WireSpec.Value
/-!
# Operands

The values that expressions compute with.  Integers are wide enough to hold those of all fields, so
comparing two of them is exact whatever their kinds are.
-/

namespace WireSpec

inductive Operand where
  | int (value : Int128)
  | float (value : Float)
  | bool (value : Bool)
  | string (value : String)
  | bytes (value : Bytes)
  | null
  deriving DecidableEq

inductive OperandKind where
  | integer | float | bool | string | bytes | null
  deriving DecidableEq, Repr

def OperandKind.name : OperandKind → String
  | integer => "integer"
  | float => "float"
  | bool => "bool"
  | string => "string"
  | bytes => "bytes"
  | null => "null"

theorem IntKind.inRange_number {k : IntKind} (x : k.Number) : Int128.InRange x.val := by
  obtain ⟨x, h₁, h₂⟩ := x
  have hlow : -Int128.bound ≤ k.least := by cases k <;> decide
  have hhigh : k.bound ≤ Int128.bound := by cases k <;> decide
  exact ⟨Int.le_trans hlow h₁, Int.lt_of_lt_of_le h₂ hhigh⟩

namespace Operand

def kind : Operand → OperandKind
  | int _ => .integer
  | float _ => .float
  | bool _ => .bool
  | string _ => .string
  | bytes _ => .bytes
  | null => .null

def ofUInt64 (n : UInt64) : Operand := int (.ofUInt64 n)

def ofChar (c : Char) : Operand := ofUInt64 c.val.toUInt64

def ofValue : Value → Operand
  | .int _ x => int ⟨x.val, IntKind.inRange_number x⟩
  | .float32 bits => float (Float.ofBits (Binary.widen bits))
  | .float64 bits => float (Float.ofBits bits)
  | .bool b => bool b
  | .char c => ofChar c
  | .string s => string s
  | .bytes b => bytes b
  | .null => null

/-- Whether a condition with this result holds: zeros and empty sequences count as false. -/
def truthy : Operand → Bool
  | int x => x.val != 0
  | float x => x != 0
  | bool b => b
  | string s => !s.isEmpty
  | bytes b => !b.isEmpty
  | null => false

/-- The bytes of an operand that has a length. -/
def sequence? : Operand → Option Bytes
  | bytes b => some b
  | string s => some (Text.utf8Bytes s)
  | _ => none

def toFloat? : Operand → Option Float
  | int x => some (Float.ofInt x.val)
  | float x => some x
  | _ => none

def text : Operand → String
  | int x => toString x.val
  | float x => Decimal.floatText x
  | bool b => toString b
  | string s => s
  | bytes b => Text.hexBytes b
  | null => "null"

/-- Byte sequences compare at the first byte in which they differ. -/
def orderBytes (a b : Bytes) : Ordering := compare (a.map UInt8.toNat) (b.map UInt8.toNat)

/-- The order of two operands of one kind; an integer and a float compare as floats. -/
def order? : Operand → Operand → Option Ordering
  | int a, int b => some (compare a.val b.val)
  | string a, string b => some (orderBytes (Text.utf8Bytes a) (Text.utf8Bytes b))
  | bytes a, bytes b => some (orderBytes a b)
  | bool a, bool b => some (compare a b)
  | null, null => some .eq
  | a, b => do Binary.order? (← a.toFloat?) (← b.toFloat?)

end Operand

end WireSpec
