import WireSpec.Builtins
import WireSpec.Operand
import WireSpec.Operator
/-!
# Formulas

A formula is an expression in which every name has been replaced by what it stands for: a constant,
the place of a field in its message, the whole input, or a function.
-/

namespace WireSpec

inductive Formula where
  | const (value : Operand)
  /-- The value of the field at this place. -/
  | field (place : Nat)
  /-- The whole message that is being decoded. -/
  | input
  | unary (op : UnaryOp) (operand : Formula)
  | binary (op : BinaryOp) (left right : Formula)
  | length (object : Formula)
  | index (object index : Formula)
  | slice (object start stop : Formula)
  | call (name : String) (function : Builtin) (argument : Formula)

namespace Formula

def constant? : Formula → Option Operand
  | const c => some c
  | _ => none

/-- The operands of the outermost operator are constants; with none, there is nothing to compute. -/
def isReady : Formula → Bool
  | unary _ e | length e | call _ _ e => e.constant?.isSome
  | binary _ l r | index l r => l.constant?.isSome && r.constant?.isSome
  | slice o s e => o.constant?.isSome && s.constant?.isSome && e.constant?.isSome
  | const _ | field _ | input => false

end Formula

/-! ### Text of formulas -/

/-- Floats in formulas show a point, or an exponent outside of `1e-4` to `1e16`. -/
def Formula.floatLayout : Decimal.Layout where
  plain := some (-4, 16)
  pointZero := true
  plusSign := false
  tie := .up

namespace Operand

/-- The operand with the name of its kind. -/
def summary : Operand → String
  | int x => "Int(" ++ toString x.val ++ ")"
  | float x =>
      "Float(" ++
        Formula.floatLayout.text .double (Binary.Format.double.read x.toBits.toNat) ++ ")"
  | bool b => "Bool(" ++ toString b ++ ")"
  | string s => "Str(" ++ Text.quoted s ++ ")"
  | bytes b => "Bytes([" ++ ", ".intercalate (b.map fun x => toString x.toNat) ++ "])"
  | null => "Null"

end Operand

def UnaryOp.summary : UnaryOp → String
  | negate => "Neg"
  | not => "Not"
  | complement => "BitNot"

def BinaryOp.summary : BinaryOp → String
  | or => "Or"
  | and => "And"
  | bitOr => "BitOr"
  | bitXor => "BitXor"
  | bitAnd => "BitAnd"
  | equal => "Eq"
  | notEqual => "NotEq"
  | less => "Lt"
  | lessEqual => "LtEq"
  | greater => "Gt"
  | greaterEqual => "GtEq"
  | shiftLeft => "Shl"
  | shiftRight => "Shr"
  | add => "Add"
  | sub => "Sub"
  | mul => "Mul"
  | div => "Div"
  | rem => "Rem"

namespace Formula

/-- The formula as nested applications of its operators. -/
def summary : Formula → String
  | const c => "Const(" ++ c.summary ++ ")"
  | field i => "Field(" ++ toString i ++ ")"
  | input => "This"
  | unary op e => "Unary(" ++ op.summary ++ ", " ++ e.summary ++ ")"
  | binary op l r => "Binary(" ++ op.summary ++ ", " ++ l.summary ++ ", " ++ r.summary ++ ")"
  | length e => "Length(" ++ e.summary ++ ")"
  | index o i => "Index(" ++ o.summary ++ ", " ++ i.summary ++ ")"
  | slice o s e => "Slice(" ++ o.summary ++ ", " ++ s.summary ++ ", " ++ e.summary ++ ")"
  | call name _ e => "Call(" ++ name ++ ", " ++ e.summary ++ ")"

end Formula

end WireSpec
