import WireSpec.Binary
/-!
# Shortest decimal numerals

The reals that round to a given floating-point number form an interval around it.  The numeral
written for the number has the fewest digits of all decimals in that interval, and of those it is
the nearest to the number.
-/

namespace WireSpec.Decimal

structure Numeral where
  digits : Nat
  exponent : Int
  deriving DecidableEq, Repr

/-- Which of two equally near numerals is taken. -/
inductive Tie where
  | up
  | toEven
  deriving DecidableEq, Repr

/-- The positive number `significand * 2 ^ exponent` with the interval around it, in quarters of
the last significand bit: `below` quarters down and two up, ends included when `closed`. -/
structure Interval where
  significand : Nat
  exponent : Int
  below : Nat
  closed : Bool

/-- The gap below a power of two is half the gap above it, except at the bottom of the range. -/
def Interval.around (f : Binary.Format) (significand : Nat) (exponent : Int) : Interval where
  significand := significand
  exponent := exponent
  below := if significand = f.hiddenBit ∧ exponent ≠ f.leastExponent then 1 else 2
  closed := significand % 2 == 0

/-- The multiple of `10 ^ place` nearest to the number, of those two next to it that lie in the
interval. -/
def Interval.onGrid (i : Interval) (tie : Tie) (place : Int) : Option Nat :=
  let scale := Nat.pow 2 (i.exponent - 2).toNat * Nat.pow 10 (-place).toNat
  let step := Nat.pow 10 place.toNat * Nat.pow 2 (2 - i.exponent).toNat
  let value := 4 * i.significand * scale
  let low := (4 * i.significand - i.below) * scale
  let high := (4 * i.significand + 2) * scale
  let holds (n : Nat) : Bool :=
    if i.closed then decide (low ≤ n * step ∧ n * step ≤ high)
    else decide (low < n * step ∧ n * step < high)
  let down := value / step
  let up := down + 1
  match holds down, holds up with
  | false, false => none
  | true, false => some down
  | false, true => some up
  | true, true =>
      match compare (2 * (value % step)) step with
      | .lt => some down
      | .gt => some up
      | .eq =>
          match tie with
          | .up => some up
          | .toEven => some (if down % 2 = 0 then down else up)

/-- Tries finer and finer grids, `place` being the first. -/
def Interval.search (i : Interval) (tie : Tie) : Nat → Int → Numeral
  | 0, place => ⟨0, place⟩
  | tries + 1, place =>
      match i.onGrid tie place with
      | some digits => ⟨digits, place⟩
      | none => i.search tie tries (place - 1)

/-- The place of a power of ten that is above the number. -/
def Interval.topPlace (i : Interval) : Int :=
  (Nat.log2 i.significand + 1 + i.exponent) * 30103 / 100000 + 2

/-- Seventeen digits tell any two doubles apart, so twenty-one places are always enough. -/
def Interval.shortest (i : Interval) (tie : Tie) : Numeral :=
  i.search tie 21 i.topPlace

end WireSpec.Decimal
