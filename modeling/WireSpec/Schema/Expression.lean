import WireSpec.Schema
import WireSpec.Schema.Skip
/-!
# Reading expressions

Binary operators have ten levels of precedence and group to the left; prefix operators bind
tighter, and member access and indexing tightest.  Every parser here takes an allowance, the
number of levels that may still be nested.  A prefix operator, an operator of a chain and each
step of member access or indexing use up one level, so the allowance also bounds the recursion.
-/

namespace WireSpec.Expression

open WireSpec.Parser

/-- The binary operators, loosest first. -/
def precedence : List (List (Symbol × BinaryOp)) :=
  [[(.pipePipe, .or)],
    [(.ampAmp, .and)],
    [(.pipe, .bitOr)],
    [(.caret, .bitXor)],
    [(.amp, .bitAnd)],
    [(.equal, .equal), (.notEqual, .notEqual)],
    [(.less, .less), (.lessEqual, .lessEqual), (.greater, .greater),
      (.greaterEqual, .greaterEqual)],
    [(.shiftLeft, .shiftLeft), (.shiftRight, .shiftRight)],
    [(.plus, .add), (.minus, .sub)],
    [(.star, .mul), (.slash, .div), (.percent, .rem)]]

theorem length_precedence : precedence.length = 10 := rfl

/-- The operator of one level that a token is. -/
def operatorIn? (level : List (Symbol × BinaryOp)) : TokenKind → Option BinaryOp
  | .symbol s => level.lookup s
  | _ => none

def prefixOp? : TokenKind → Option UnaryOp
  | .symbol .minus => some .negate
  | .symbol .bang => some .not
  | .symbol .tilde => some .complement
  | _ => none

/-- The literals of one token.  Text that is no token has been reported and stands for `null`. -/
def literal? : TokenKind → Option Literal
  | .integer n => some (.integer n)
  | .float x => some (.float x)
  | .string s => some (.string s)
  | .char c => some (.char c)
  | .keyword .trueValue => some (.bool true)
  | .keyword .falseValue => some (.bool false)
  | .keyword .nullValue => some .null
  | .invalid => some .null
  | _ => none

/-- Reports that no level is left, and goes to the end of the subexpression. -/
def tooDeep : Parser Unit := do
  report (← peek).position .nestedTooDeeply
  skip Skip.subexpression

/-- Reads items with commas between them, at least one. -/
def commaSeparated (item : Parser Expr) : Parser (List Expr) := do
  let first ← item
  let later ← sequence (fun tokens => (tokens.head?.map (·.kind)) == some (.symbol .comma)) do
    let _ ← advance
    item
  return first :: later

/-- Reads the arguments behind an opening parenthesis, and the parenthesis that closes them. -/
def argumentsWith (item : Parser Expr) (close : Mark) : Parser (List Expr) := do
  if ← eat .parenClose then return []
  else
    let items ← commaSeparated item
    if ← expect close then return items
    else
      skip Skip.arguments
      return items

mutual

def whole (allowance : Nat) : Parser Expr := binary allowance precedence
termination_by allowance * 64 + 30
decreasing_by simp only [length_precedence]; omega

/-- An expression whose loosest operators are those of the first of the given levels. -/
def binary (allowance : Nat) (levels : List (List (Symbol × BinaryOp))) : Parser Expr :=
  match levels with
  | [] => unary allowance
  | level :: tighter => do
      let left ← binary allowance tighter
      chain allowance level tighter left
termination_by allowance * 64 + 2 * levels.length + 1

/-- Operators of one level with their right operands, as long as they follow `left`. -/
def chain (allowance : Nat) (level : List (Symbol × BinaryOp))
    (tighter : List (List (Symbol × BinaryOp))) (left : Expr) : Parser Expr := do
  match operatorIn? level (← peek).kind with
  | none => return left
  | some op =>
      match allowance with
      | 0 =>
          tooDeep
          return left
      | allowance + 1 =>
          let _ ← advance
          let right ← binary allowance tighter
          chain allowance level tighter (.binary op left right)
termination_by allowance * 64 + 2 * tighter.length + 2

def unary (allowance : Nat) : Parser Expr :=
  match allowance with
  | 0 => do
      let token ← peek
      tooDeep
      return .literal token.position .null
  | allowance + 1 => operand allowance
termination_by allowance * 64

/-- A prefix operator with its operand, or an expression without one. -/
def operand (allowance : Nat) : Parser Expr := do
  let token ← peek
  match prefixOp? token.kind with
  | some op =>
      let _ ← advance
      return .unary token.position op (← unary allowance)
  | none =>
      let object ← primary allowance
      access allowance object
termination_by allowance * 64 + 41

/-- Member accesses and indexes, as long as they follow `object`. -/
def access (allowance : Nat) (object : Expr) : Parser Expr := do
  match (← peek).kind with
  | .symbol .dot =>
      match allowance with
      | 0 =>
          tooDeep
          return object
      | allowance + 1 =>
          let _ ← advance
          match ← name? with
          | some name => access allowance (.member object name)
          | none =>
              reportHere .accessedMember
              return object
  | .symbol .bracketOpen =>
      match allowance with
      | 0 =>
          tooDeep
          return object
      | allowance + 1 =>
          let _ ← advance
          let start ← whole allowance
          if ← eat .dotDot then
            let stop ← whole allowance
            let _ ← expect .closeIndex
            access allowance (.slice object start stop)
          else
            let _ ← expect .closeIndex
            access allowance (.index object start)
  | _ => return object
termination_by allowance * 64

def primary (allowance : Nat) : Parser Expr := do
  let token ← peek
  match literal? token.kind with
  | some literal =>
      let _ ← advance
      return .literal token.position literal
  | none =>
      if ← eat .parenOpen then
        let inner ← whole allowance
        let _ ← expect .closeGroup
        return inner
      else
        match ← name? with
        | some name =>
            if ← eat .parenOpen then
              let arguments ← argumentsWith (whole allowance) (.closeCall name)
              return .call token.position name arguments
            else return .name token.position name
        | none =>
            reportHere .expression
            return .literal token.position .null
termination_by allowance * 64 + 40

end

def expression : Parser Expr := whole nestingLimit

/-- The arguments behind an opening parenthesis of a modifier. -/
def arguments (close : Mark) : Parser (List Expr) := argumentsWith expression close

end WireSpec.Expression
