import WireSpec.Scalar
/-!
# Binary floating point

A floating-point number is kept as its bit pattern.  `Format.read` takes a pattern apart into sign,
integral significand and exponent, and everything here works on those three exactly: changing
between the two sizes, the remainder of a division, and reading a decimal numeral.
-/

namespace WireSpec.Binary

/-- Sizes of the two fields below the sign bit. -/
structure Format where
  fractionBits : Nat
  exponentBits : Nat
  deriving DecidableEq, Repr

namespace Format

def single : Format := ⟨23, 8⟩
def double : Format := ⟨52, 11⟩

/-- The bit above the fraction, which every normal number has. -/
def hiddenBit (f : Format) : Nat := Nat.pow 2 f.fractionBits

/-- The number of values of the exponent field. -/
def exponentCount (f : Format) : Nat := Nat.pow 2 f.exponentBits

/-- The exponent of the last significand bit in the smallest numbers. -/
def leastExponent (f : Format) : Int :=
  2 - Nat.pow 2 (f.exponentBits - 1) - f.fractionBits

end Format

/-- What a bit pattern stands for; a finite one is `± significand * 2 ^ exponent`. -/
inductive Reading where
  | nan
  | infinite (negative : Bool)
  | finite (negative : Bool) (significand : Nat) (exponent : Int)
  deriving DecidableEq, Repr

def Format.read (f : Format) (bits : Nat) : Reading :=
  let fraction := bits % f.hiddenBit
  let biased := bits / f.hiddenBit % f.exponentCount
  let negative := bits.testBit (f.fractionBits + f.exponentBits)
  if biased = f.exponentCount - 1 then
    if fraction = 0 then .infinite negative else .nan
  else if biased = 0 then .finite negative fraction f.leastExponent
  else .finite negative (fraction + f.hiddenBit) (f.leastExponent + (biased - 1))

/-- A power of two times a number is that number with a decimal exponent: `2 ^ -k` is
`5 ^ k / 10 ^ k`. -/
def scaled (significand : Nat) (exponent : Int) : Nat × Nat :=
  (significand * Nat.pow 2 exponent.toNat * Nat.pow 5 (-exponent).toNat, (-exponent).toNat)

/-- The double nearest to a reading. -/
def Reading.toFloat : Reading → Float
  | .nan => Float.ofBits 0x7ff8000000000000
  | .infinite false => Float.ofBits 0x7ff0000000000000
  | .infinite true => Float.ofBits 0xfff0000000000000
  | .finite negative significand exponent =>
      let (digits, places) := scaled significand exponent
      let magnitude := Float.ofScientific digits true places
      if negative then -magnitude else magnitude

/-- The single nearest to a reading. -/
def Reading.toFloat32 : Reading → Float32
  | .nan => Float32.ofBits 0x7fc00000
  | .infinite false => Float32.ofBits 0x7f800000
  | .infinite true => Float32.ofBits 0xff800000
  | .finite negative significand exponent =>
      let (digits, places) := scaled significand exponent
      let magnitude := Float32.ofScientific digits true places
      if negative then -magnitude else magnitude

/-- A single as a double of the same value.  A NaN keeps its sign and payload and becomes quiet. -/
def widen (bits : UInt32) : UInt64 :=
  match Format.single.read bits.toNat with
  | .nan =>
      let sign := (bits >>> 31).toUInt64
      let payload := (bits &&& 0x007fffff).toUInt64
      (sign <<< 63) ||| (0x7ff8000000000000 : UInt64) ||| (payload <<< 29)
  | reading => reading.toFloat.toBits

/-- The single nearest to a double.  A NaN keeps its sign and the upper part of its payload and
becomes quiet. -/
def narrow (bits : UInt64) : UInt32 :=
  match Format.double.read bits.toNat with
  | .nan =>
      let sign := (bits >>> 63).toUInt32
      let payload := ((bits >>> 29) &&& 0x007fffff).toUInt32
      (sign <<< 31) ||| (0x7fc00000 : UInt32) ||| payload
  | reading => reading.toFloat32.toBits

/-- What division toward zero leaves over; it has the sign of the dividend and is exact. -/
def remainder (x y : Float) : Float :=
  match Format.double.read x.toBits.toNat, Format.double.read y.toBits.toNat with
  | .finite negative m p, .finite _ n q =>
      if n = 0 then Reading.nan.toFloat
      else
        let unit := min p q
        let rest := m * Nat.pow 2 (p - unit).toNat % (n * Nat.pow 2 (q - unit).toNat)
        (Reading.finite negative rest unit).toFloat
  | .finite _ _ _, .infinite _ => x
  | _, _ => Reading.nan.toFloat

/-- The double nearest to `digits * 10 ^ exponent`.  Numerals far outside the range of doubles are
settled without computing their value. -/
def ofDecimal (digits : Nat) (exponent : Int) : Float :=
  if digits = 0 then Float.ofBits 0
  else
    let magnitude := exponent + (Nat.toDigits 10 digits).length
    if magnitude > 400 then (Reading.infinite false).toFloat
    else if magnitude < -400 then Float.ofBits 0
    else if 0 ≤ exponent then Float.ofScientific digits false exponent.toNat
    else Float.ofScientific digits true (-exponent).toNat

/-- The order of two doubles; a NaN has none. -/
def order? (x y : Float) : Option Ordering :=
  if x < y then some .lt
  else if x == y then some .eq
  else if y < x then some .gt
  else none

end WireSpec.Binary
