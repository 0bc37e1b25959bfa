import WireSpec.Formula
import WireSpec.Template
import WireSpec.ValueFormat
/-!
# Decoding plans

A plan lists the fields of one message in the order of their bytes, and the rules by which a
decoded message is displayed.
-/

namespace WireSpec

inductive Width where
  | fixed (size : Nat)
  /-- The value of a formula over the fields before. -/
  | dynamic (size : Formula)
  /-- All bytes that are left. -/
  | remaining

structure RangeCheck where
  least : Formula
  greatest : Formula

structure FieldPlan where
  name : String
  type : ScalarType
  width : Width
  order : ByteOrder := .big
  optional : Bool := false
  encoding : Text.Encoding := .utf8
  format : ValueFormat := .default
  label : Option String := none
  color : Option String := none
  range : Option RangeCheck := none
  validate : Option Formula := none

namespace FieldPlan

/-- The plan of a field without modifiers. -/
def plain (name : String) (type : ScalarType) : FieldPlan where
  name := name
  type := type
  width := (type.fixedWidth.map Width.fixed).getD .remaining

def fixedWidth (f : FieldPlan) : Option Nat :=
  match f.width with
  | .fixed size => some size
  | _ => none

end FieldPlan

inductive Display where
  | template (template : Template Nat)
  | formula (formula : Formula)

structure Rule where
  condition : Formula
  display : Option Display
  color : Option Formula

structure Plan where
  fields : List FieldPlan
  rules : List Rule

/-- The sum of the widths, where all are fixed and no field is optional. -/
def Plan.fixedSize (p : Plan) : Option Nat :=
  (p.fields.mapM fun (f : FieldPlan) => if f.optional then none else f.fixedWidth).map fun widths =>
    widths.foldr (· + ·) 0

/-- Fills the placeholders with the values of the fields; an absent field shows nothing. -/
def Template.render (t : Template Nat) (fields : List FieldPlan) (slots : List (Option Value)) :
    String :=
  t.fill fun place =>
    match slots[place]?, fields[place]? with
    | some (some v), some f => v.formatted f.format f.fixedWidth
    | _, _ => ""

end WireSpec
