/-!
# Operators of expressions
-/

namespace WireSpec

inductive UnaryOp where
  | negate | not | complement
  deriving DecidableEq, Repr

def UnaryOp.text : UnaryOp → String
  | negate => "-"
  | not => "!"
  | complement => "~"

inductive BinaryOp where
  | or | and | bitOr | bitXor | bitAnd
  | equal | notEqual | less | lessEqual | greater | greaterEqual
  | shiftLeft | shiftRight | add | sub | mul | div | rem
  deriving DecidableEq, Repr

def BinaryOp.text : BinaryOp → String
  | or => "||"
  | and => "&&"
  | bitOr => "|"
  | bitXor => "^"
  | bitAnd => "&"
  | equal => "=="
  | notEqual => "!="
  | less => "<"
  | lessEqual => "<="
  | greater => ">"
  | greaterEqual => ">="
  | shiftLeft => "<<"
  | shiftRight => ">>"
  | add => "+"
  | sub => "-"
  | mul => "*"
  | div => "/"
  | rem => "%"

end WireSpec
