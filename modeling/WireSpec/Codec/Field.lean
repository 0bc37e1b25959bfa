import WireSpec.Codec.CodecError
/-!
# The bytes of one field

`FieldPlan.decode` reads a value from exactly the bytes of a field, and `FieldPlan.encode` writes
one.
-/

namespace WireSpec.FieldPlan

def decode (f : FieldPlan) (raw : Bytes) : Except CodecError Value :=
  match f.type with
  | .int kind => .ok (.int kind (kind.ofBits (f.order.read raw)))
  | .float32 => .ok (.float32 (UInt32.ofNat (f.order.read raw)))
  | .float64 => .ok (.float64 (UInt64.ofNat (f.order.read raw)))
  | .bool => .ok (.bool (f.order.read raw != 0))
  | .char => .ok (.char (Char.ofNat (f.order.read raw)))
  | .bytes => .ok (.bytes raw)
  | .void => .ok .null
  | .string =>
      match f.encoding.decode raw with
      | some s => .ok (.string s)
      | none => .error (.invalidEncoding f.name f.encoding)

/-- The low 32 bits of an integer are taken for the code point of a character. -/
def charByte? (x : Int) : Option UInt8 :=
  let code := x.toNat % UInt32.size
  if 0 ≤ x ∧ code < 256 then some (UInt8.ofNat code) else none

/-- The bytes of a value, where the type of the field admits it. -/
def bytesOf? (f : FieldPlan) (v : Value) : Option Bytes :=
  match f.type with
  | .int kind => do
      let x ← kind.ofInt? (← v.integer?)
      return f.order.write kind.size (IntKind.toBits x)
  | .float32 => v.double?.map fun bits => f.order.write 4 (Binary.narrow bits).toNat
  | .float64 => v.double?.map fun bits => f.order.write 8 bits.toNat
  | .bool => v.integer?.map fun x => [if x = 0 then 0 else 1]
  | .char => do return [← charByte? (← v.integer?)]
  | .bytes => v.bytes?
  | .void => some (List.replicate (f.fixedWidth.getD 0) 0)
  | .string => none

/-- Writes a value without regard to the width of the field. -/
def write (f : FieldPlan) (v : Value) : Except CodecError Bytes :=
  match f.type with
  | .string =>
      match v.string? with
      | none => .error (.typeMismatch f.name f.type)
      | some s =>
          match f.encoding.encode s with
          | some raw => .ok raw
          | none => .error (.invalidEncoding f.name f.encoding)
  | _ =>
      match f.bytesOf? v with
      | some raw => .ok raw
      | none => .error (.typeMismatch f.name f.type)

/-- Writes a value; where the width of the field is fixed, that is how many bytes it must have. -/
def encode (f : FieldPlan) (v : Value) : Except CodecError Bytes := do
  let raw ← f.write v
  match f.width with
  | .fixed size =>
      if raw.length = size then return raw
      else throw (.widthMismatch f.name size raw.length)
  | _ => return raw

end WireSpec.FieldPlan
