import WireSpec.Decimal.Shortest
/-!
# The text of a number

A `Layout` fixes everything about the text of a floating-point number but its digits: where an
exponent is used and how it is written, and whether whole numbers show a point.
-/

namespace WireSpec.Decimal

structure Layout where
  /-- Numbers `d.ddd * 10 ^ e` with `e` from the first bound up to, not including, the second are
  written without an exponent; `none` writes all numbers so. -/
  plain : Option (Int × Int)
  /-- Whether a whole number written without an exponent ends in `.0`. -/
  pointZero : Bool
  /-- Whether a positive exponent has a sign. -/
  plusSign : Bool
  tie : Tie

def zeros (n : Int) : String := String.ofList (List.replicate n.toNat '0')

namespace Layout

def isPlain (l : Layout) (e : Int) : Bool :=
  match l.plain with
  | none => true
  | some (low, high) => decide (low ≤ e ∧ e < high)

def whole (l : Layout) (digits : String) : String :=
  if l.pointZero then digits ++ ".0" else digits

def positional (l : Layout) (digits : List Char) (point : Int) : String :=
  let text := String.ofList digits
  if point ≤ 0 then "0." ++ zeros (-point) ++ text
  else if digits.length ≤ point then l.whole (text ++ zeros (point - digits.length))
  else String.ofList (digits.take point.toNat) ++ "." ++ String.ofList (digits.drop point.toNat)

def scientific (l : Layout) (digits : List Char) (e : Int) : String :=
  let fraction := if digits.length ≤ 1 then "" else "." ++ String.ofList (digits.drop 1)
  let sign := if l.plusSign && decide (0 ≤ e) then "+" else ""
  String.ofList (digits.take 1) ++ fraction ++ "e" ++ sign ++ toString e

def numeral (l : Layout) (n : Numeral) : String :=
  let digits := Nat.toDigits 10 n.digits
  let point := digits.length + n.exponent
  if l.isPlain (point - 1) then l.positional digits point else l.scientific digits (point - 1)

def text (l : Layout) (f : Binary.Format) : Binary.Reading → String
  | .nan => "NaN"
  | .infinite negative => if negative then "-inf" else "inf"
  | .finite negative significand exponent =>
      let magnitude :=
        if significand = 0 then l.whole "0"
        else l.numeral ((Interval.around f significand exponent).shortest l.tie)
      if negative then "-" ++ magnitude else magnitude

end Layout

/-- Numbers in messages and rendered values never have an exponent, and whole ones no point. -/
def Layout.message : Layout where
  plain := none
  pointZero := false
  plusSign := false
  tie := .up

def floatText (x : Float) : String :=
  Layout.message.text .double (Binary.Format.double.read x.toBits.toNat)

end WireSpec.Decimal
