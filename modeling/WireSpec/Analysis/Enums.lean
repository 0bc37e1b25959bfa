import WireSpec.Analysis.Binding
/-!
# Values of enum members

Enums are evaluated in the order of declaration, so a member's value can use the members before it
and those of earlier enums.
-/

namespace WireSpec

/-- The items whose name occurred before, in their order. -/
def repeatedBy {α : Type} (name : α → String) : List String → List α → List α
  | _, [] => []
  | seen, x :: rest =>
      if seen.contains (name x) then x :: repeatedBy name seen rest
      else repeatedBy name (name x :: seen) rest

namespace Checked

def each {α : Type} (check : α → Checked Unit) : List α → Checked Unit
  | [] => pure ()
  | x :: rest => do
      check x
      each check rest

end Checked

namespace Context

/-- The value of a member; one that is no constant is reported and has the value `null`. -/
def memberValue (c : Context) (enum : String) (own : Members) (member : String) (value : Expr) :
    Checked Operand := do
  let formula ← c.bind (.constants own) value
  match formula.constant? with
  | some v => return v
  | none =>
      .reportAt value.position (.notConstant enum member)
      return .null

/-- Evaluates members behind those of the enum that are known. -/
def membersFrom (c : Context) (enum : String) (own : Members) :
    List (String × Expr) → Checked Members
  | [] => pure own
  | (member, value) :: rest =>
      if (own.lookup member).isSome then do
        .reportAt value.position (.duplicateMember member enum)
        c.membersFrom enum own rest
      else do
        let v ← c.memberValue enum own member value
        c.membersFrom enum (own ++ [(member, v)]) rest

end Context

namespace EnumTable

/-- Evaluates enums behind those that are known.  Of two enums with one name, the first counts. -/
def extend (builtins : Builtins) (t : EnumTable) : List EnumDecl → Checked EnumTable
  | [] => pure t
  | decl :: rest => do
      let members ← Context.membersFrom ⟨builtins, t⟩ decl.name [] decl.members
      extend builtins { t with known := t.known ++ [(decl.name, members)] } rest

def ofProtocol (builtins : Builtins) (p : Protocol) : Checked EnumTable :=
  extend builtins ⟨p.enums.map (·.name), []⟩ p.enums

end EnumTable

end WireSpec
