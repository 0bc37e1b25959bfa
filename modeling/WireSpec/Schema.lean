import WireSpec.Operator
import WireSpec.Position
import WireSpec.Scalar
/-!
# Protocol definitions

What a definition text says, before any name in it is looked up: a protocol with its enums, its
messages and the rules by which decoded messages are displayed.
-/

namespace WireSpec

inductive Literal where
  | integer (value : UInt64)
  | float (value : Float)
  | string (value : String)
  | char (value : Char)
  | bool (value : Bool)
  | null
  deriving DecidableEq

/-- An expression.  A position is kept where an expression begins with a token of its own. -/
inductive Expr where
  | literal (position : Position) (value : Literal)
  | name (position : Position) (name : String)
  | unary (position : Position) (op : UnaryOp) (operand : Expr)
  | binary (op : BinaryOp) (left right : Expr)
  | member (object : Expr) (name : String)
  | index (object index : Expr)
  /-- `object[start..stop]` -/
  | slice (object start stop : Expr)
  | call (position : Position) (function : String) (arguments : List Expr)

/-- Where the leftmost part of an expression begins. -/
def Expr.position : Expr → Position
  | literal p _ => p
  | name p _ => p
  | unary p _ _ => p
  | binary _ left _ => left.position
  | member object _ => object.position
  | index object _ => object.position
  | slice object _ _ => object.position
  | call p _ _ => p

structure Modifier where
  name : String
  arguments : List Expr
  position : Position

structure FieldDecl where
  type : ScalarType
  name : String
  optional : Bool
  modifiers : List Modifier
  position : Position

structure MessageDecl where
  name : String
  /-- The message whose fields come before those of this one. -/
  base : Option String
  fields : List FieldDecl
  position : Position

structure EnumDecl where
  name : String
  members : List (String × Expr)
  position : Position

structure ImportDecl where
  path : String
  localName : Option String
  position : Position

inductive ActionKind where
  | display
  | color
  deriving DecidableEq, Repr

/-- `when (condition) ...` with its actions. -/
structure RuleDecl where
  condition : Expr
  actions : List (ActionKind × Expr)
  position : Position

structure Protocol where
  name : String
  version : Option String
  description : Option String
  imports : List ImportDecl
  enums : List EnumDecl
  messages : List MessageDecl
  /-- The rules of all parser sections together; `none` without such a section. -/
  rules : Option (List RuleDecl)

namespace Protocol

def findMessage? (p : Protocol) (name : String) : Option MessageDecl :=
  p.messages.find? (·.name = name)

def findEnum? (p : Protocol) (name : String) : Option EnumDecl :=
  p.enums.find? (·.name = name)

end Protocol

end WireSpec
