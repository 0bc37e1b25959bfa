import WireSpec.Schema.Expression
/-!
# Reading expressions with a counter

The readers of expressions are told how many levels may still be nested.  The same reading can be
done with a counter of the levels in use, which is part of the state and has to be lowered again on
every way out.  Here it is written down so, each reader with the name of the one that is given an
allowance: nothing but the counter says when the limit is reached, nothing bounds the recursion, and
there is no result where the counter would fall below zero.
-/

namespace WireSpec

/-- The counter of the levels in use, and how many activations of `unary` that have found a level
left are not yet over. -/
structure Depth where
  counter : Nat
  active : Nat
  deriving DecidableEq

/-- What is kept while an expression is read. -/
structure Reader where
  close : Position
  rest : List Token
  problems : List (Position × SyntaxError)
  depth : Depth
  /-- Every depth that has been entered, in order. -/
  passed : List Depth

abbrev Counted (α : Type) : Type := StateT Reader Option α

namespace Counted

open WireSpec.Expression (operatorIn? prefixOp? literal? precedence)
open WireSpec.Parser (peek advance eat expect name? reportHere skip)

variable {α : Type}

/-- Reads without a look at the counter. -/
def plain (p : Parser α) : Counted α := fun r =>
  let outcome := p.run r.close r.rest
  some (outcome.value,
    { r with rest := outcome.rest, problems := r.problems ++ outcome.problems })

theorem run_plain (p : Parser α) (r : Reader) : (plain p).run r =
    some ((p.run r.close r.rest).value,
      { r with
        rest := (p.run r.close r.rest).rest
        problems := r.problems ++ (p.run r.close r.rest).problems }) := rfl

def goTo (d : Depth) : Counted Unit := fun r =>
  some ((), { r with depth := d, passed := r.passed ++ [d] })

def raise : Counted Unit := do
  let d := (← get).depth
  goTo { d with counter := d.counter + 1 }

/-- Lowers the counter by `n`, if it is not below that. -/
def lower (n : Nat) : Counted Unit := do
  let d := (← get).depth
  if n ≤ d.counter then goTo { d with counter := d.counter - n } else failure

def enter : Counted Unit := do
  let d := (← get).depth
  goTo { d with active := d.active + 1 }

def leave : Counted Unit := do
  let d := (← get).depth
  goTo { d with active := d.active - 1 }

/-- The end of a loop that has raised the counter in `chained` turns. -/
def settle (chained : Nat) (e : Expr) : Counted Expr := do
  lower chained
  return e

/-- How many levels may be in use at once. -/
structure Limit where
  levels : Nat

namespace Limit

/-- The limit of expressions. -/
def nesting : Limit := ⟨nestingLimit⟩

/-- Whether no level is left; then that is reported, and the subexpression is passed over. -/
def tooDeep (l : Limit) : Counted Bool := do
  if (← get).depth.counter < l.levels then return false
  else
    plain Expression.tooDeep
    return true

mutual

def whole (l : Limit) : Counted Expr := l |>.binary precedence
partial_fixpoint

def binary (l : Limit) (levels : List (List (Symbol × BinaryOp))) : Counted Expr :=
  match levels with
  | [] => l |>.unary
  | level :: tighter => do
      let left ← l |>.binary tighter
      l |>.chain level tighter left 0
partial_fixpoint

def chain (l : Limit) (level : List (Symbol × BinaryOp)) (tighter : List (List (Symbol × BinaryOp)))
    (left : Expr) (chained : Nat) : Counted Expr := do
  match operatorIn? level (← plain peek).kind with
  | none => settle chained left
  | some op =>
      if ← l.tooDeep then settle chained left
      else
        raise
        let _ ← plain advance
        let right ← l |>.binary tighter
        l |>.chain level tighter (.binary op left right) (chained + 1)
partial_fixpoint

def unary (l : Limit) : Counted Expr := do
  let token ← plain peek
  if ← l.tooDeep then return .literal token.position .null
  else
    raise
    enter
    let e ← l |>.operand
    leave
    lower 1
    return e
partial_fixpoint

def operand (l : Limit) : Counted Expr := do
  let token ← plain peek
  match prefixOp? token.kind with
  | some op =>
      let _ ← plain advance
      return .unary token.position op (← l |>.unary)
  | none => l |>.accessed
partial_fixpoint

/-- A primary with its accesses. -/
def accessed (l : Limit) : Counted Expr := do
  let object ← l |>.primary
  l |>.access object 0
partial_fixpoint

def access (l : Limit) (object : Expr) (chained : Nat) : Counted Expr := do
  match (← plain peek).kind with
  | .symbol .dot =>
      if ← l.tooDeep then settle chained object
      else
        raise
        let _ ← plain advance
        match ← plain name? with
        | some name => l |>.access (.member object name) (chained + 1)
        | none =>
            plain (reportHere .accessedMember)
            settle (chained + 1) object
  | .symbol .bracketOpen =>
      if ← l.tooDeep then settle chained object
      else
        raise
        let _ ← plain advance
        let start ← l |>.whole
        if ← plain (eat .dotDot) then
          let stop ← l |>.whole
          let _ ← plain (expect .closeIndex)
          l |>.access (.slice object start stop) (chained + 1)
        else
          let _ ← plain (expect .closeIndex)
          l |>.access (.index object start) (chained + 1)
  | _ => settle chained object
partial_fixpoint

def primary (l : Limit) : Counted Expr := do
  let token ← plain peek
  match literal? token.kind with
  | some literal =>
      let _ ← plain advance
      return .literal token.position literal
  | none =>
      if ← plain (eat .parenOpen) then
        let inner ← l |>.whole
        let _ ← plain (expect .closeGroup)
        return inner
      else
        match ← plain name? with
        | some name =>
            if ← plain (eat .parenOpen) then
              return .call token.position name (← l |>.arguments (.closeCall name))
            else return .name token.position name
        | none =>
            plain (reportHere .expression)
            return .literal token.position .null
partial_fixpoint

/-- Arguments behind an opening parenthesis, and the parenthesis that closes them. -/
def arguments (l : Limit) (close : Mark) : Counted (List Expr) := do
  if ← plain (eat .parenClose) then return []
  else
    let items ← l |>.commaSeparated
    if ← plain (expect close) then return items
    else
      plain (skip Skip.arguments)
      return items
partial_fixpoint

def commaSeparated (l : Limit) : Counted (List Expr) := do
  let item ← l |>.whole
  if ← plain (eat .comma) then return item :: (← l |>.commaSeparated)
  else return [item]
partial_fixpoint

end

end Limit

end Counted

end WireSpec
