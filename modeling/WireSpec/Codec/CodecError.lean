import WireSpec.Formula.Eval
import WireSpec.Plan
/-!
# Errors of decoding and encoding
-/

namespace WireSpec

/-- Why a formula of a field gave no usable value. -/
inductive Fault where
  | formula (error : EvalError)
  | negativeLength (length : Int128)
  | lengthNotInteger (got : OperandKind)
  deriving DecidableEq

def Fault.message : Fault → String
  | formula error => error.message
  | negativeLength length => "length " ++ toString length.val ++ " is negative"
  | lengthNotInteger got => "length must be an integer, got " ++ got.name

inductive CodecError where
  | insufficientData (field : String)
  | outOfRange (field : String) (value : Value) (least greatest : Operand)
  | validationFailed (field : String)
  | invalidEncoding (field : String) (encoding : Text.Encoding)
  | evaluation (field : String) (fault : Fault)
  | missingValue (field : String)
  | typeMismatch (field : String) (expected : ScalarType)
  | widthMismatch (field : String) (expected actual : Nat)
  deriving DecidableEq

def CodecError.message : CodecError → String
  | insufficientData field => "insufficient data for field " ++ field
  | outOfRange field value least greatest =>
      "field " ++ field ++ " value " ++ value.text ++ " out of range [" ++ least.text ++ ", " ++
        greatest.text ++ "]"
  | validationFailed field => "validation failed for field " ++ field
  | invalidEncoding field encoding =>
      "field " ++ field ++ ": invalid " ++ encoding.name ++ " text"
  | evaluation field fault => "field " ++ field ++ ": " ++ fault.message
  | missingValue field => "missing value for field " ++ field
  | typeMismatch field expected =>
      "field " ++ field ++ ": value does not match declared type " ++ expected.name
  | widthMismatch field expected actual =>
      "field " ++ field ++ ": expected " ++ toString expected ++ " byte(s), got " ++
        toString actual

end WireSpec
