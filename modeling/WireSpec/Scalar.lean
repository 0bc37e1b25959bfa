/-!
# Scalar types

The types a field can have.  Integers come in eight kinds, told apart by size and sign;
`IntKind.Number` is the set of integers that one kind can hold.
-/

namespace WireSpec

inductive IntKind where
  | u8 | i8 | u16 | i16 | u32 | i32 | u64 | i64
  deriving DecidableEq, Repr

namespace IntKind

def size : IntKind → Nat
  | u8 | i8 => 1
  | u16 | i16 => 2
  | u32 | i32 => 4
  | u64 | i64 => 8

def isSigned : IntKind → Bool
  | i8 | i16 | i32 | i64 => true
  | u8 | u16 | u32 | u64 => false

def name : IntKind → String
  | u8 => "uint8"
  | i8 => "int8"
  | u16 => "uint16"
  | i16 => "int16"
  | u32 => "uint32"
  | i32 => "int32"
  | u64 => "uint64"
  | i64 => "int64"

def modulus : IntKind → Nat
  | u8 | i8 => UInt8.size
  | u16 | i16 => UInt16.size
  | u32 | i32 => UInt32.size
  | u64 | i64 => UInt64.size

theorem modulus_pos (k : IntKind) : 0 < k.modulus := by cases k <;> decide

def least (k : IntKind) : Int :=
  if k.isSigned then -(k.modulus / 2 : Nat) else 0

/-- First number above the kind. -/
def bound (k : IntKind) : Int :=
  if k.isSigned then (k.modulus / 2 : Nat) else k.modulus

/-- The integers a field of this kind can hold. -/
def Holds (k : IntKind) (x : Int) : Prop := k.least ≤ x ∧ x < k.bound

instance (k : IntKind) (x : Int) : Decidable (k.Holds x) :=
  inferInstanceAs (Decidable (_ ∧ _))

abbrev Number (k : IntKind) : Type := { x : Int // k.Holds x }

theorem bound_sub_least (k : IntKind) : k.bound - k.least = k.modulus := by
  cases k <;> decide

/-- The bit pattern of a number, in two's complement for the signed kinds. -/
def toBits {k : IntKind} (x : k.Number) : Nat := (x.val % k.modulus).toNat

/-- The number with a given bit pattern; bits above the size of the kind are ignored. -/
def ofBits (k : IntKind) (n : Nat) : k.Number :=
  ⟨(n - k.least) % k.modulus + k.least, by
    have hpos : (0 : Int) < k.modulus := Int.natCast_pos.mpr k.modulus_pos
    have hlo := Int.emod_nonneg (n - k.least) (Int.ne_of_gt hpos)
    have hhi := Int.emod_lt_of_pos (n - k.least) hpos
    have := k.bound_sub_least
    exact ⟨by omega, by omega⟩⟩

def ofInt? (k : IntKind) (x : Int) : Option k.Number :=
  if h : k.Holds x then some ⟨x, h⟩ else none

end IntKind

inductive ScalarType where
  | int (kind : IntKind)
  | float32
  | float64
  | bool
  | string
  | bytes
  | char
  | void
  deriving DecidableEq, Repr

namespace ScalarType

def name : ScalarType → String
  | int k => k.name
  | float32 => "float32"
  | float64 => "float64"
  | bool => "bool"
  | string => "string"
  | bytes => "bytes"
  | char => "char"
  | void => "void"

def all : List ScalarType :=
  [int .u8, int .i8, int .u16, int .i16, int .u32, int .i32, int .u64, int .i64,
    float32, float64, bool, string, bytes, char, void]

def ofName? (word : String) : Option ScalarType :=
  all.find? (·.name = word)

/-- Size in bytes, for the types whose size does not depend on the message. -/
def fixedWidth : ScalarType → Option Nat
  | int k => some k.size
  | float32 => some 4
  | float64 => some 8
  | bool => some 1
  | char => some 1
  | string => none
  | bytes => none
  | void => none

def isNumeric : ScalarType → Bool
  | int _ | float32 | float64 => true
  | bool | string | bytes | char | void => false

end ScalarType

end WireSpec
