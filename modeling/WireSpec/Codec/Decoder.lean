import WireSpec.Codec.Field
/-!
# Decoding and encoding messages

A decoder reads the fields of its plan one after the other.  The formulas of a field see the values
of the fields up to it; those of the rules see all of them, and decide only what is displayed.
-/

namespace WireSpec

structure Decoded where
  fields : Record
  display : Option String
  color : Option String
  /-- How many bytes the fields took. -/
  consumed : Nat

namespace FieldPlan

def evaluate (f : FieldPlan) (env : Env) (formula : Formula) : Except CodecError Operand :=
  (formula.eval env).mapError fun e => .evaluation f.name (.formula e)

/-- How many bytes the field takes that begins at `offset`. -/
def sizeAt (f : FieldPlan) (input : Bytes) (offset : Nat) (slots : List (Option Value)) :
    Except CodecError Nat :=
  match f.width with
  | .fixed size => .ok size
  | .remaining => .ok (input.length - offset)
  | .dynamic size => do
      match ← f.evaluate ⟨some input, slots⟩ size with
      | .int n =>
          if IntKind.u64.Holds n.val then return n.val.toNat
          else throw (.evaluation f.name (.negativeLength n))
      | other => throw (.evaluation f.name (.lengthNotInteger other.kind))

/-- A value that cannot be compared with a bound is out of range. -/
def checkRange (f : FieldPlan) (env : Env) (v : Value) : Except CodecError Unit := do
  match f.range with
  | none => return ()
  | some range =>
      let least ← f.evaluate env range.least
      let greatest ← f.evaluate env range.greatest
      let x := Operand.ofValue v
      let below := (x.order? least).all (· == .lt)
      let above := (x.order? greatest).all (· == .gt)
      if below || above then throw (.outOfRange f.name v least greatest)

def checkValid (f : FieldPlan) (env : Env) : Except CodecError Unit := do
  match f.validate with
  | none => return ()
  | some condition =>
      unless (← f.evaluate env condition).truthy do throw (.validationFailed f.name)

/-- Reads the field that begins at `offset`, the values before it given.  The results are its
value and where the next field begins. -/
def read (f : FieldPlan) (input : Bytes) (offset : Nat) (slots : List (Option Value)) :
    Except CodecError (Option Value × Nat) :=
  if f.optional && decide (input.length ≤ offset) then .ok (none, offset)
  else do
    let size ← f.sizeAt input offset slots
    if input.length < offset + size then throw (.insufficientData f.name)
    let v ← f.decode ((input.drop offset).take size)
    let env : Env := ⟨some input, slots ++ [some v]⟩
    f.checkRange env v
    f.checkValid env
    return (some v, offset + size)

end FieldPlan

namespace Plan

/-- Reads fields from `offset` on; the results are all slots and where the last field ends. -/
def readFields (input : Bytes) :
    List FieldPlan → Nat → List (Option Value) → Except CodecError (List (Option Value) × Nat)
  | [], offset, slots => .ok (slots, offset)
  | f :: rest, offset, slots => do
      let (slot, next) ← f.read input offset slots
      readFields input rest next (slots ++ [slot])

/-- The fields that are present, by name. -/
def record (fields : List FieldPlan) (slots : List (Option Value)) : Record :=
  (fields.zip slots).filterMap fun (f, slot) => slot.map (f.name, ·)

/-- Whether a rule applies; one whose condition cannot be evaluated does not. -/
def applies (env : Env) (r : Rule) : Bool :=
  match r.condition.eval env with
  | .ok v => v.truthy
  | .error _ => false

def formulaText? (env : Env) (formula : Formula) : Option String :=
  match formula.eval env with
  | .ok v => some v.text
  | .error _ => none

def displayText? (p : Plan) (env : Env) : Display → Option String
  | .template t => some (t.render p.fields env.slots)
  | .formula f => formulaText? env f

/-- Display text and color of the first rule that applies. -/
def annotate (p : Plan) (env : Env) : Option String × Option String :=
  match p.rules.find? (applies env) with
  | some r => (r.display.bind (p.displayText? env), r.color.bind (formulaText? env))
  | none => (none, none)

def decode (p : Plan) (input : Bytes) : Except CodecError Decoded := do
  let (slots, consumed) ← readFields input p.fields 0 []
  let (display, color) := p.annotate ⟨some input, slots⟩
  return { fields := record p.fields slots, display, color, consumed }

/-- Writes one field.  Absent optional fields take no bytes, and padding needs no value. -/
def encodeField (values : Record) (f : FieldPlan) : Except CodecError Bytes :=
  match values.lookup f.name with
  | some v => f.encode v
  | none =>
      if f.optional then .ok []
      else if f.type = .void then f.encode .null
      else .error (.missingValue f.name)

def encode (p : Plan) (values : Record) : Except CodecError Bytes := do
  return (← p.fields.mapM (encodeField values)).flatten

end Plan

/-- A plan with the names of what it was made from. -/
structure Decoder where
  name : String
  version : String
  description : Option String
  message : String
  plan : Plan

namespace Decoder

def id (d : Decoder) : String := "cpdl-" ++ String.ofList (d.name.toList.map Char.toLower)

def jsonField (name : String) (json : String) : String := Text.jsonString name ++ ":" ++ json

def jsonObject (fields : List String) : String :=
  "\x7b" ++ ",".intercalate fields ++ "\x7d"

def jsonRecord (r : Record) : String := jsonObject (r.map fun (name, v) => jsonField name v.json)

/-- The result of decoding in JSON.  Texts that are missing are left out. -/
def jsonResult : Except CodecError Decoded → String
  | .ok d =>
      jsonObject ([jsonField "success" "true", jsonField "fields" (jsonRecord d.fields)] ++
        (d.display.map fun s => jsonField "display" (Text.jsonString s)).toList ++
        (d.color.map fun s => jsonField "color" (Text.jsonString s)).toList)
  | .error e =>
      jsonObject [jsonField "success" "false", jsonField "fields" (jsonRecord []),
        jsonField "error" (Text.jsonString e.message)]

def decodeToJson (d : Decoder) (input : Bytes) : String := jsonResult (d.plan.decode input)

end Decoder

end WireSpec
