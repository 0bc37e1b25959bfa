import WireSpec.Formula
/-!
# Evaluating formulas

A formula has a value or a first error: operands come before their operator and left before right.
Integer arithmetic is exact or an error, never wrapped.
-/

namespace WireSpec

/-- Where a formula needs an operand of certain kinds. -/
inductive Role where
  | length
  | index
  | sliceStart
  | sliceEnd
  | call (function : String)
  deriving DecidableEq, Repr

def Role.text : Role → String
  | length => "'.length'"
  | index => "index"
  | sliceStart => "slice start"
  | sliceEnd => "slice end"
  | call function => function ++ "()"

/-- The kinds of operands that are good for a role. -/
def Role.expects : Role → String
  | length => "bytes or string"
  | index | sliceStart | sliceEnd => "integer"
  | call _ => "bytes"

inductive EvalError where
  | binaryType (op : BinaryOp) (left right : OperandKind)
  | unaryType (op : UnaryOp) (operand : OperandKind)
  | divisionByZero
  | overflow (op : String)
  | badShift (amount : Int128)
  | indexOutOfBounds (index : Int128) (length : Nat)
  | sliceOutOfBounds (start stop : Int128) (length : Nat)
  | notIndexable (kind : OperandKind)
  | argument (role : Role) (got : OperandKind)
  | noInput
  | undecoded (place : Nat)
  deriving DecidableEq

def EvalError.message : EvalError → String
  | binaryType op left right =>
      "operator '" ++ op.text ++ "' cannot be applied to " ++ left.name ++ " and " ++ right.name
  | unaryType op operand =>
      "operator '" ++ op.text ++ "' cannot be applied to " ++ operand.name
  | divisionByZero => "division by zero"
  | overflow op => "integer overflow in '" ++ op ++ "'"
  | badShift amount => "shift amount " ++ toString amount.val ++ " out of range"
  | indexOutOfBounds index length =>
      "index " ++ toString index.val ++ " out of bounds for length " ++ toString length
  | sliceOutOfBounds start stop length =>
      "slice [" ++ toString start.val ++ ".." ++ toString stop.val ++
        "] out of bounds for length " ++ toString length
  | notIndexable kind => kind.name ++ " cannot be indexed"
  | argument role got => role.text ++ " expects " ++ role.expects ++ ", got " ++ got.name
  | noInput => "'this' is not available here"
  | undecoded place => "field #" ++ toString place ++ " has not been decoded yet"

/-- What a formula can refer to.  A slot is `none` for an optional field that is absent. -/
structure Env where
  /-- There is no input where constants are computed. -/
  input : Option Bytes
  slots : List (Option Value)

def Env.constant : Env := ⟨none, []⟩

namespace Formula

/-! ### Positions in a sequence -/

/-- Negative positions count from the end: `-1` is the last. -/
def resolve? (position : Int) (length : Nat) : Option Nat :=
  let resolved := if position < 0 then length + position else position
  if 0 ≤ resolved then some resolved.toNat else none

/-- The half-open range of `sequence[start..stop]`.  An end that is not negative is excluded; a
negative one is included, so `[0..-1]` is the whole sequence. -/
def sliceBounds? (start stop : Int) (length : Nat) : Option (Nat × Nat) := do
  let low ← resolve? start length
  let high ← if stop < 0 then (resolve? stop length).map (· + 1) else some stop.toNat
  if low ≤ high ∧ high ≤ length then some (low, high) else none

/-! ### Operators -/

def unaryOp (op : UnaryOp) (operand : Operand) : Except EvalError Operand :=
  match op, operand with
  | .not, v => .ok (.bool !v.truthy)
  | .negate, .int x =>
      match Int128.ofInt? (-x.val) with
      | some y => .ok (.int y)
      | none => .error (.overflow UnaryOp.negate.text)
  | .negate, .float x => .ok (.float (-x))
  | .complement, .int x => .ok (.int x.complement)
  | op, v => .error (.unaryType op v.kind)

/-- The exact result of integer arithmetic, where it and the quotient of a remainder are in range.
Division is toward zero. -/
def integerResult? (op : BinaryOp) (a b : Int128) : Option Int128 :=
  match op with
  | .add => Int128.ofInt? (a.val + b.val)
  | .sub => Int128.ofInt? (a.val - b.val)
  | .mul => Int128.ofInt? (a.val * b.val)
  | .div => Int128.ofInt? (a.val.tdiv b.val)
  | .rem =>
      if Int128.InRange (a.val.tdiv b.val) then Int128.ofInt? (a.val.tmod b.val) else none
  | _ => none

def divides (op : BinaryOp) : Bool := op == .div || op == .rem

def integerArithmetic (op : BinaryOp) (a b : Int128) : Except EvalError Operand :=
  if divides op && b.val == 0 then .error .divisionByZero
  else
    match integerResult? op a b with
    | some x => .ok (.int x)
    | none => .error (.overflow op.text)

def floatResult (op : BinaryOp) (a b : Float) : Float :=
  match op with
  | .add => a + b
  | .sub => a - b
  | .mul => a * b
  | .div => a / b
  | _ => Binary.remainder a b

/-- Two integers are computed with as integers, and two numbers of which one is a float as
floats. -/
def arithmetic (op : BinaryOp) (l r : Operand) : Except EvalError Operand :=
  match l, r with
  | .int a, .int b => integerArithmetic op a b
  | l, r =>
      match l.toFloat?, r.toFloat? with
      | some a, some b => .ok (.float (floatResult op a b))
      | _, _ => .error (.binaryType op l.kind r.kind)

/-- The amount of a shift must be less than the number of bits. -/
def shift (f : Int128 → Nat → Int128) (a b : Int128) : Except EvalError Operand :=
  if 0 ≤ b.val ∧ b.val < 128 then .ok (.int (f a b.val.toNat)) else .error (.badShift b)

def bitwise (op : BinaryOp) (l r : Operand) : Except EvalError Operand :=
  match l, r with
  | .int a, .int b =>
      match op with
      | .bitAnd => .ok (.int (a.and b))
      | .bitOr => .ok (.int (a.or b))
      | .bitXor => .ok (.int (a.xor b))
      | .shiftLeft => shift .shiftLeft a b
      | _ => shift .shiftRight a b
  | l, r => .error (.binaryType op l.kind r.kind)

/-- Whether a comparison holds between operands in the given order. -/
def holdsOf (op : BinaryOp) (order : Ordering) : Bool :=
  match op with
  | .less => order == .lt
  | .lessEqual => order != .gt
  | .greater => order == .gt
  | _ => order != .lt

def comparison (op : BinaryOp) (l r : Operand) : Except EvalError Operand :=
  match l.order? r with
  | some order => .ok (.bool (holdsOf op order))
  | none => .error (.binaryType op l.kind r.kind)

def binaryOp (op : BinaryOp) (l r : Operand) : Except EvalError Operand :=
  match op with
  | .equal => .ok (.bool (l.order? r == some .eq))
  | .notEqual => .ok (.bool (l.order? r != some .eq))
  | .less | .lessEqual | .greater | .greaterEqual => comparison op l r
  | .and => .ok (.bool (l.truthy && r.truthy))
  | .or => .ok (.bool (l.truthy || r.truthy))
  | .add =>
      match l, r with
      | .string a, .string b => .ok (.string (a ++ b))
      | l, r => arithmetic op l r
  | .sub | .mul | .div | .rem => arithmetic op l r
  | .bitAnd | .bitOr | .bitXor | .shiftLeft | .shiftRight => bitwise op l r

/-! ### Operands with a role -/

def expectInt (role : Role) (operand : Operand) : Except EvalError Int128 :=
  match operand with
  | .int x => .ok x
  | v => .error (.argument role v.kind)

def sequenceFor (role : Role) (operand : Operand) : Except EvalError Bytes :=
  match operand.sequence? with
  | some s => .ok s
  | none => .error (.argument role operand.kind)

def indexable (operand : Operand) : Except EvalError Bytes :=
  match operand.sequence? with
  | some s => .ok s
  | none => .error (.notIndexable operand.kind)

def byteAt (s : Bytes) (i : Int128) : Except EvalError Operand :=
  match (resolve? i.val s.length).bind (s[·]?) with
  | some b => .ok (.ofUInt64 b.toUInt64)
  | none => .error (.indexOutOfBounds i s.length)

def bytesBetween (s : Bytes) (start stop : Int128) : Except EvalError Operand :=
  match sliceBounds? start.val stop.val s.length with
  | some (low, high) => .ok (.bytes ((s.take high).drop low))
  | none => .error (.sliceOutOfBounds start stop s.length)

/-- The value of a field: one that is absent has the value `null`. -/
def slotValue (slots : List (Option Value)) (place : Nat) : Except EvalError Operand :=
  match slots[place]? with
  | some (some v) => .ok (.ofValue v)
  | some none => .ok .null
  | none => .error (.undecoded place)

/-- The value of a formula.  The right operand of `&&` and `||` counts only where the left one does
not decide. -/
def eval (env : Env) : Formula → Except EvalError Operand
  | const c => .ok c
  | field i => slotValue env.slots i
  | input =>
      match env.input with
      | some b => .ok (.bytes b)
      | none => .error .noInput
  | unary op e => do unaryOp op (← e.eval env)
  | binary .and l r => do
      if (← l.eval env).truthy then return .bool (← r.eval env).truthy
      else return .bool false
  | binary .or l r => do
      if (← l.eval env).truthy then return .bool true
      else return .bool (← r.eval env).truthy
  | binary op l r => do
      let a ← l.eval env
      let b ← r.eval env
      binaryOp op a b
  | length e => do
      let s ← sequenceFor .length (← e.eval env)
      return .ofUInt64 (UInt64.ofNat s.length)
  | index o i => do
      let object ← o.eval env
      let position ← expectInt .index (← i.eval env)
      let s ← indexable object
      byteAt s position
  | slice o s e => do
      let object ← o.eval env
      let start ← expectInt .sliceStart (← s.eval env)
      let stop ← expectInt .sliceEnd (← e.eval env)
      let bytes ← indexable object
      bytesBetween bytes start stop
  | call name function e => do
      let s ← sequenceFor (.call name) (← e.eval env)
      return .ofUInt64 (function s)

end Formula

end WireSpec
