import WireSpec.Analysis.Message
import WireSpec.Codec.Decoder
import WireSpec.Diagnostic
import WireSpec.Schema.Declaration
import WireSpec.Token.Scan
/-!
# From a definition to a decoder

A definition text is cut into tokens, read as a protocol and checked, and its message is planned.
A decoder comes only of a text in which no stage found a problem.
-/

namespace WireSpec

structure Options where
  /-- The message to compile; without a name, the first. -/
  message : Option String := none
  /-- The version of a protocol that states none. -/
  defaultVersion : String := "1.0"
  builtins : Builtins := .standard

/-- A definition text as far as it can be read, with all lexical and syntactic problems. -/
structure ParsedSource where
  protocol : Option Protocol
  diagnostics : List Diagnostic

namespace ParsedSource

def ofScan (s : Scan) : ParsedSource :=
  let outcome := Protocol.parse s.tokens
  { protocol := outcome.value
    diagnostics :=
      s.problems.map Diagnostic.ofLexical ++ outcome.problems.map Diagnostic.ofSyntactic }

end ParsedSource

namespace Protocol

def checkNames (p : Protocol) : Checked Unit := do
  .each (fun (e : EnumDecl) => .reportAt e.position (.duplicateEnum e.name))
    (repeatedBy (·.name) [] p.enums)
  .each (fun (m : MessageDecl) => .reportAt m.position (.duplicateMessage m.name))
    (repeatedBy (·.name) [] p.messages)

def selectMessage (p : Protocol) (o : Options) : Checked (Option MessageDecl) :=
  match o.message with
  | some name =>
      match p.findMessage? name with
      | some m => pure (some m)
      | none => do
          .report none (.unknownMessage name)
          return none
  | none =>
      match p.messages with
      | m :: _ => pure (some m)
      | [] => do
          .report none .noMessages
          return none

/-- Checks a protocol and plans its message, if there is one. -/
def analyze (p : Protocol) (o : Options) : Checked (Option (MessageDecl × Plan)) := do
  p.checkNames
  let enums ← EnumTable.ofProtocol o.builtins p
  match ← p.selectMessage o with
  | none => return none
  | some m => return some (m, ← Context.plan ⟨o.builtins, enums⟩ p m)

def compile (p : Protocol) (o : Options) : Except (List Diagnostic) Decoder :=
  let analysis := p.analyze o
  match analysis.value, analysis.problems with
  | some (m, plan), [] =>
      .ok {
        name := p.name
        version := p.version.getD o.defaultVersion
        description := p.description
        message := m.name
        plan }
  | _, problems => .error (problems.map Diagnostic.ofSemantic)

end Protocol

/-- A scan in which no token was found is not read any further. -/
def compile (source : String) (o : Options) : Except (List Diagnostic) Decoder :=
  let scan := Scan.source source
  if scan.isBlocked then .error (scan.problems.map Diagnostic.ofLexical)
  else
    let parsed := ParsedSource.ofScan scan
    match parsed.protocol, parsed.diagnostics with
    | some p, [] => p.compile o
    | _, diagnostics => .error diagnostics

/-- What a compilation gives: a decoder, or the diagnostics and a report that joins them. -/
structure Compilation where
  success : Bool
  decoder : Option Decoder
  report : Option String
  diagnostics : List Diagnostic

namespace Compilation

def ofResult : Except (List Diagnostic) Decoder → Compilation
  | .ok decoder => ⟨true, some decoder, none, []⟩
  | .error diagnostics => ⟨false, none, some (Diagnostic.report diagnostics), diagnostics⟩

def ofSource (source : String) (o : Options) : Compilation := ofResult (compile source o)

end Compilation

end WireSpec
