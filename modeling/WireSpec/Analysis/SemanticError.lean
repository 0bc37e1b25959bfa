import WireSpec.Formula.Eval
import WireSpec.Position
import WireSpec.Scalar
/-!
# Semantic errors

What can be wrong with a definition that is well formed, and the writer in which these errors are
collected: a `Checked` value is there whether or not something was wrong with it.
-/

namespace WireSpec

inductive SemanticError where
  | duplicateEnum (name : String)
  | duplicateMessage (name : String)
  | duplicateMember (member enum : String)
  | notConstant (enum member : String)
  | unknownMessage (name : String)
  | noMessages
  | unknownBase (base message : String)
  | inheritanceCycle (message : String)
  | duplicateField (field message : String)
  | duplicateModifier (modifier field : String)
  | modifierArity (modifier field : String) (expected got : Nat)
  | wordExpected (modifier field : String)
  | unknownModifier (modifier field : String)
  | rangeNotNumeric (field : String) (type : ScalarType)
  | unknownByteOrder (word : String)
  | lengthOfFixed (field : String) (type : ScalarType)
  | lengthNegative (field : String)
  | lengthNotInteger (field : String) (got : OperandKind)
  | lengthMissing (field : String)
  | encodingOfOther (field : String) (type : ScalarType)
  | unknownEncoding (word : String)
  | unknownFormat (word : String)
  | unknownIdentifier (name : String)
  | unknownEnumMember (enum member : String)
  | unknownMember (name : String)
  | ambiguousIdentifier (name enum₁ enum₂ : String)
  | builtinNotCalled (name : String)
  | inputNotConstant
  | callArity (function : String) (got : Nat)
  | constantError (error : EvalError)
  deriving DecidableEq

namespace SemanticError

def argumentCount (n : Nat) : String :=
  if n = 1 then "1 argument" else toString n ++ " arguments"

def message : SemanticError → String
  | duplicateEnum name => "Duplicate enum name: " ++ name
  | duplicateMessage name => "Duplicate message name: " ++ name
  | duplicateMember member enum => "Duplicate member " ++ member ++ " in enum " ++ enum
  | notConstant enum member =>
      "value of " ++ enum ++ "." ++ member ++ " is not a constant expression"
  | unknownMessage name => "Unknown message: " ++ name
  | noMessages => "protocol declares no messages"
  | unknownBase base message => "Unknown base message " ++ base ++ " for message " ++ message
  | inheritanceCycle message => "Inheritance cycle involving message " ++ message
  | duplicateField field message => "Duplicate field " ++ field ++ " in message " ++ message
  | duplicateModifier modifier field => "Duplicate modifier " ++ modifier ++ " on field " ++ field
  | modifierArity modifier field expected got =>
      modifier ++ "(...) on field " ++ field ++ " expects " ++ argumentCount expected ++
        ", got " ++ toString got
  | wordExpected modifier field =>
      modifier ++ "(...) on field " ++ field ++ " expects a name or string"
  | unknownModifier modifier field => "Unknown modifier " ++ modifier ++ " on field " ++ field
  | rangeNotNumeric field type =>
      "range(...) requires a numeric field, " ++ field ++ " is " ++ type.name
  | unknownByteOrder word => "endian(...) expects big or little, got " ++ word
  | lengthOfFixed field type =>
      "length(...) is only valid on bytes, string or void fields, " ++ field ++ " is " ++ type.name
  | lengthNegative field => "length of " ++ field ++ " is negative"
  | lengthNotInteger field got =>
      "length of " ++ field ++ " must be an integer, got " ++ got.name
  | lengthMissing field =>
      "field " ++ field ++ " needs length(...) because it is not the last field"
  | encodingOfOther field type =>
      "encoding(...) is only valid on string fields, " ++ field ++ " is " ++ type.name
  | unknownEncoding word => "Unknown encoding: " ++ word
  | unknownFormat word => "Unknown format: " ++ word
  | unknownIdentifier name => "Unknown identifier: " ++ name
  | unknownEnumMember enum member => "Unknown identifier: " ++ enum ++ "." ++ member
  | unknownMember name => "Unknown member: " ++ name
  | ambiguousIdentifier name enum₁ enum₂ =>
      "Ambiguous identifier: " ++ name ++ " (member of " ++ enum₁ ++ " and " ++ enum₂ ++ ")"
  | builtinNotCalled name => "built-in function " ++ name ++ " must be called"
  | inputNotConstant => "'this' is not allowed in a constant expression"
  | callArity function got => function ++ "() expects 1 argument, got " ++ toString got
  | constantError error => "invalid constant expression: " ++ error.message

end SemanticError

/-- A value with the problems that were met on the way to it, in that order. -/
structure Checked (α : Type) where
  value : α
  problems : List (Option Position × SemanticError)

namespace Checked

variable {α β : Type}

protected def pure (a : α) : Checked α := ⟨a, []⟩

protected def bind (c : Checked α) (f : α → Checked β) : Checked β :=
  ⟨(f c.value).value, c.problems ++ (f c.value).problems⟩

instance : Monad Checked where
  pure := Checked.pure
  bind := Checked.bind

@[simp] theorem value_pure (a : α) : (pure a : Checked α).value = a := rfl

@[simp] theorem problems_pure (a : α) : (pure a : Checked α).problems = [] := rfl

@[simp] theorem value_bind (c : Checked α) (f : α → Checked β) :
    (c >>= f).value = (f c.value).value := rfl

@[simp] theorem problems_bind (c : Checked α) (f : α → Checked β) :
    (c >>= f).problems = c.problems ++ (f c.value).problems := rfl

def report (position : Option Position) (error : SemanticError) : Checked Unit :=
  ⟨(), [(position, error)]⟩

def reportAt (position : Position) (error : SemanticError) : Checked Unit :=
  report (some position) error

end Checked

end WireSpec
