import WireSpec.Value
/-!
# Number formats

How a field shows its integers: in decimal, or as the bit pattern in another base.
-/

namespace WireSpec

inductive ValueFormat where
  | default | decimal | hexadecimal | binary | octal
  deriving DecidableEq, Repr

namespace ValueFormat

def ofName? : String → Option ValueFormat
  | "dec" | "decimal" => some decimal
  | "hex" | "hexadecimal" => some hexadecimal
  | "bin" | "binary" => some binary
  | "oct" | "octal" => some octal
  | _ => none

def padLeft (width : Nat) (digits : List Char) : List Char :=
  List.replicate (width - digits.length) '0' ++ digits

/-- A bit pattern of `width` bytes as a numeral.  Hexadecimal and binary numerals have all digits of
that width, octal ones only those they need. -/
def numeral (format : ValueFormat) (bits width : Nat) : String :=
  match format with
  | hexadecimal =>
      "0x" ++ String.ofList (padLeft (2 * width) ((Nat.toDigits 16 bits).map Char.toUpper))
  | binary => "0b" ++ String.ofList (padLeft (8 * width) (Nat.toDigits 2 bits))
  | octal => "0o" ++ String.ofList (Nat.toDigits 8 bits)
  | default | decimal => toString bits

end ValueFormat

namespace Value

/-- The bit pattern of a value that is shown as a number. -/
def bits? : Value → Option Nat
  | int _ x => some (IntKind.toBits x)
  | char c => some c.toNat
  | bool b => some (if b then 1 else 0)
  | _ => none

/-- The value in a format, `width` being its size in bytes where it has one.  Of a byte sequence
each byte is shown by itself. -/
def formatted (v : Value) (format : ValueFormat) (width : Option Nat) : String :=
  match format with
  | .default | .decimal => v.text
  | format =>
      match v with
      | .bytes b => " ".intercalate (b.map fun x => format.numeral x.toNat 1)
      | v =>
          match v.bits? with
          | some bits => format.numeral bits (width.getD 0)
          | none => v.text

end Value

end WireSpec
