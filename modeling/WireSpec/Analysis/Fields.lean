import WireSpec.Analysis.Enums
import WireSpec.Plan
/-!
# Planning fields

A field's plan is that of its type, changed by its modifiers.  Each modifier is read into a
`Setting` by itself, and no two of them change the same part of the plan.
-/

namespace WireSpec

/-- What one modifier changes in the plan of a field. -/
inductive Setting where
  | range (range : RangeCheck)
  | order (order : ByteOrder)
  | width (width : Width)
  | encoding (encoding : Text.Encoding)
  | format (format : ValueFormat)
  | label (text : String)
  | color (text : String)
  | validate (condition : Formula)

def Setting.isWidth : Setting → Bool
  | .width _ => true
  | _ => false

def FieldPlan.set (f : FieldPlan) : Setting → FieldPlan
  | .range range => { f with range := some range }
  | .order order => { f with order }
  | .width width => { f with width }
  | .encoding encoding => { f with encoding }
  | .format format => { f with format }
  | .label text => { f with label := some text }
  | .color text => { f with color := some text }
  | .validate condition => { f with validate := some condition }

/-- A field in its message: the names of all fields before it, and whether it is the last. -/
structure FieldSite where
  decl : FieldDecl
  before : List String
  isLast : Bool

namespace FieldSite

def name (s : FieldSite) : String := s.decl.name

def type (s : FieldSite) : ScalarType := s.decl.type

/-- The fields that a range or a length can use. -/
def scope (s : FieldSite) : Scope := .fields s.before

/-- A validation can use the field itself as well. -/
def ownScope (s : FieldSite) : Scope := .fields (s.before ++ [s.name])

def wrongArity (s : FieldSite) (m : Modifier) (expected : Nat) : Checked Unit :=
  .reportAt m.position (.modifierArity m.name s.name expected m.arguments.length)

def argument (s : FieldSite) (m : Modifier) : Checked (Option Expr) :=
  match m.arguments with
  | [e] => pure (some e)
  | _ => do
      s.wrongArity m 1
      return none

/-- The single argument of a modifier that is to be a name or a string. -/
def word (s : FieldSite) (m : Modifier) : Checked (Option String) := do
  match ← s.argument m with
  | some (.name _ w) => return some w
  | some (.literal _ (.string w)) => return some w
  | some e =>
      .reportAt e.position (.wordExpected m.name s.name)
      return none
  | none => return none

/-- Reads a word out of a table, with an error for words that are not in it. -/
def wordIn {α : Type} (s : FieldSite) (m : Modifier) (table : String → Option α)
    (error : String → SemanticError) : Checked (Option α) := do
  match ← s.word m with
  | none => return none
  | some w =>
      match table w with
      | some a => return some a
      | none =>
          .reportAt m.position (error w)
          return none

def range (c : Context) (s : FieldSite) (m : Modifier) : Checked (Option Setting) :=
  match m.arguments with
  | [least, greatest] => do
      unless s.type.isNumeric || s.type == .char do
        .reportAt m.position (.rangeNotNumeric s.name s.type)
      let least ← c.bind s.scope least
      let greatest ← c.bind s.scope greatest
      return some (.range ⟨least, greatest⟩)
  | _ => do
      s.wrongArity m 2
      return none

/-- A constant length is an integer that is not negative; any other length is left to decoding. -/
def widthOf (s : FieldSite) (position : Position) : Formula → Checked Width
  | .const (.int n) =>
      if IntKind.u64.Holds n.val then pure (.fixed n.val.toNat)
      else do
        .reportAt position (.lengthNegative s.name)
        return .fixed 0
  | .const other => do
      .reportAt position (.lengthNotInteger s.name other.kind)
      return .fixed 0
  | formula => pure (.dynamic formula)

def length (c : Context) (s : FieldSite) (m : Modifier) : Checked (Option Setting) := do
  match ← s.argument m with
  | none => return none
  | some e =>
      if s.type.fixedWidth.isSome then
        .reportAt m.position (.lengthOfFixed s.name s.type)
        return none
      else
        let formula ← c.bind s.scope e
        return some (.width (← s.widthOf e.position formula))

def encoding (s : FieldSite) (m : Modifier) : Checked (Option Setting) := do
  match ← s.word m with
  | none => return none
  | some w =>
      unless s.type == .string do
        .reportAt m.position (.encodingOfOther s.name s.type)
      match Text.Encoding.ofName? w with
      | some e => return some (.encoding e)
      | none =>
          .reportAt m.position (.unknownEncoding w)
          return none

def validate (c : Context) (s : FieldSite) (m : Modifier) : Checked (Option Setting) := do
  match ← s.argument m with
  | some e => return some (.validate (← c.bind s.ownScope e))
  | none => return none

/-- What a modifier sets; `none` where it is wrong. -/
def setting (c : Context) (s : FieldSite) (m : Modifier) : Checked (Option Setting) := do
  match m.name with
  | "range" => s.range c m
  | "endian" => return (← s.wordIn m ByteOrder.ofName? .unknownByteOrder).map .order
  | "length" => s.length c m
  | "encoding" => s.encoding m
  | "format" => return (← s.wordIn m ValueFormat.ofName? .unknownFormat).map .format
  | "display" => return (← s.word m).map .label
  | "color" => return (← s.word m).map .color
  | "validate" => s.validate c m
  | other =>
      .reportAt m.position (.unknownModifier other s.name)
      return none

/-- Of two modifiers with one name, only the first is read. -/
def settings (c : Context) (s : FieldSite) :
    List String → List Modifier → Checked (List Setting)
  | _, [] => pure []
  | seen, m :: rest =>
      if seen.contains m.name then do
        .reportAt m.position (.duplicateModifier m.name s.name)
        s.settings c seen rest
      else do
        let first ← s.setting c m
        let later ← s.settings c (m.name :: seen) rest
        return first.toList ++ later

/-- The width of a field without a usable length: padding has none, and only the last field may
take all that is left. -/
def defaultWidth (s : FieldSite) : Checked (List Setting) :=
  match s.type with
  | .void => pure [.width (.fixed 0)]
  | .bytes | .string =>
      if s.isLast then pure []
      else do
        .reportAt s.decl.position (.lengthMissing s.name)
        return []
  | _ => pure []

def plan (c : Context) (s : FieldSite) : Checked FieldPlan := do
  let given ← s.settings c [] s.decl.modifiers
  let width ← if given.any Setting.isWidth then pure [] else s.defaultWidth
  let base := { FieldPlan.plain s.name s.type with optional := s.decl.optional }
  return (given ++ width).foldl FieldPlan.set base

end FieldSite

end WireSpec
