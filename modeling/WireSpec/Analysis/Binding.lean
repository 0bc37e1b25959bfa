import WireSpec.Analysis.SemanticError
import WireSpec.Schema
/-!
# Binding names

Binding turns an expression into a formula.  What a name stands for depends on the scope: in the
values of enum members there are only constants, and in the modifiers of a field there are the
fields before it as well.  `bindWith` is given what to do with each formula whose parts had no
problems; `bind` computes constants there, and `bindOnly` leaves the formula as it is.
-/

namespace WireSpec

/-- The members of an enum with their values, in the order of declaration. -/
abbrev Members : Type := List (String × Operand)

/-- The enums whose values are known.  `declared` has the names of all enums of the protocol. -/
structure EnumTable where
  declared : List String
  known : List (String × Members)

namespace EnumTable

def members? (t : EnumTable) (enum : String) : Option Members := t.known.lookup enum

/-- The enums that have a member of this name, with its values there. -/
def owners (t : EnumTable) (member : String) : List (String × Operand) :=
  t.declared.filterMap fun enum =>
    ((t.members? enum).bind (·.lookup member)).map (enum, ·)

end EnumTable

/-- What is known where any expression is bound. -/
structure Context where
  builtins : Builtins
  enums : EnumTable

inductive Scope where
  /-- The value of an enum member; those before it in its own enum come first. -/
  | constants (own : Members)
  /-- An expression of a message of which these fields are visible. -/
  | fields (visible : List String)

inductive Binding where
  | unbound
  | bound (formula : Formula)
  | ambiguous (enum₁ enum₂ : String)

def Binding.isBound : Binding → Bool
  | bound _ => true
  | _ => false

/-- The last place of a name in a list. -/
def lastPlace? (names : List String) (name : String) : Option Nat :=
  names.zipIdx.reverse.lookup name

namespace Context

/-- The binding of a member that is not qualified with its enum. -/
def lookupMember (c : Context) (name : String) : Binding :=
  match c.enums.owners name with
  | [] => .unbound
  | [(_, v)] => .bound (.const v)
  | (enum₁, _) :: (enum₂, _) :: _ => .ambiguous enum₁ enum₂

def lookup (c : Context) (scope : Scope) (name : String) : Binding :=
  match scope with
  | .fields visible =>
      if name = "this" then .bound .input
      else
        match lastPlace? visible name with
        | some place => .bound (.field place)
        | none => c.lookupMember name
  | .constants own =>
      match own.lookup name with
      | some v => .bound (.const v)
      | none => c.lookupMember name

/-- A formula in place of an expression with a problem. -/
def invalid (position : Position) (error : SemanticError) : Checked Formula := do
  .reportAt position error
  return .const .null

def bindName (c : Context) (scope : Scope) (position : Position) (name : String) :
    Checked Formula :=
  match c.lookup scope name with
  | .bound formula => pure formula
  | .ambiguous enum₁ enum₂ => invalid position (.ambiguousIdentifier name enum₁ enum₂)
  | .unbound =>
      if c.builtins.contains name then invalid position (.builtinNotCalled name)
      else if name = "this" then invalid position .inputNotConstant
      else invalid position (.unknownIdentifier name)

/-- The members of the enum that an expression in front of a point names, unless that name has a
meaning of its own. -/
def qualifier? (c : Context) (scope : Scope) : Expr → Option (String × Members)
  | .name _ name =>
      if (c.lookup scope name).isBound then none else (c.enums.members? name).map (name, ·)
  | _ => none

def literalOperand : Literal → Operand
  | .integer n => .ofUInt64 n
  | .float x => .float x
  | .string s => .string s
  | .char ch => .ofChar ch
  | .bool b => .bool b
  | .null => .null

/-- Settles a formula whose parts had no problems. -/
def settleWith (settle : Position → Formula → Checked Formula) (position : Position)
    (formula : Checked Formula) : Checked Formula :=
  if formula.problems.isEmpty then settle position formula.value else formula

def bindWith (settle : Position → Formula → Checked Formula) (c : Context) (scope : Scope) :
    Expr → Checked Formula
  | .literal _ literal => pure (.const (literalOperand literal))
  | .name position name => c.bindName scope position name
  | .unary position op operand =>
      settleWith settle position do return .unary op (← bindWith settle c scope operand)
  | .binary op left right =>
      settleWith settle left.position do
        let l ← bindWith settle c scope left
        let r ← bindWith settle c scope right
        return .binary op l r
  | .member object name =>
      match c.qualifier? scope object with
      | some (enum, members) =>
          match members.lookup name with
          | some v => pure (.const v)
          | none => invalid object.position (.unknownEnumMember enum name)
      | none =>
          if name = "length" then
            settleWith settle object.position do
              return .length (← bindWith settle c scope object)
          else invalid object.position (.unknownMember name)
  | .index object index =>
      settleWith settle object.position do
        let o ← bindWith settle c scope object
        let i ← bindWith settle c scope index
        return .index o i
  | .slice object start stop =>
      settleWith settle object.position do
        let o ← bindWith settle c scope object
        let s ← bindWith settle c scope start
        let e ← bindWith settle c scope stop
        return .slice o s e
  | .call position name arguments =>
      match c.builtins.find? name with
      | none => invalid position (.unknownIdentifier name)
      | some function =>
          match arguments with
          | [argument] =>
              settleWith settle position do
                return .call name function (← bindWith settle c scope argument)
          | _ => invalid position (.callArity name arguments.length)

/-- Replaces a formula whose operands are constants by its value. -/
def fold (position : Position) (formula : Formula) : Checked Formula :=
  if formula.isReady then
    match formula.eval .constant with
    | .ok v => pure (.const v)
    | .error e => invalid position (.constantError e)
  else pure formula

/-- Binds the names of an expression and computes its constant parts. -/
def bind (c : Context) (scope : Scope) (e : Expr) : Checked Formula := c.bindWith fold scope e

/-- Binds the names of an expression and computes nothing. -/
def bindOnly (c : Context) (scope : Scope) (e : Expr) : Checked Formula :=
  c.bindWith (fun _ formula => pure formula) scope e

end Context

end WireSpec
