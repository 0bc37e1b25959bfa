import WireSpec.Analysis.SemanticError
import WireSpec.Schema.SyntaxError
import WireSpec.Token.Lexeme
/-!
# Diagnostics

A diagnostic is a problem of any stage together with its place in the definition.
-/

namespace WireSpec

inductive Problem where
  | lexical (error : LexicalError)
  | syntactic (error : SyntaxError)
  | semantic (error : SemanticError)
  deriving DecidableEq

namespace Problem

/-- The stage that met the problem. -/
def stage : Problem → String
  | lexical _ => "lex"
  | syntactic _ => "parse"
  | semantic _ => "semantic"

def message : Problem → String
  | lexical e => e.message
  | syntactic e => e.message
  | semantic e => e.message

end Problem

/-- Problems that concern the definition as a whole have no position. -/
structure Diagnostic where
  position : Option Position
  problem : Problem
  deriving DecidableEq

namespace Diagnostic

def ofLexical (e : Position × LexicalError) : Diagnostic := ⟨some e.1, .lexical e.2⟩

def ofSyntactic (e : Position × SyntaxError) : Diagnostic := ⟨some e.1, .syntactic e.2⟩

def ofSemantic (e : Option Position × SemanticError) : Diagnostic := ⟨e.1, .semantic e.2⟩

def text (d : Diagnostic) : String :=
  let place :=
    match d.position with
    | some p => " at " ++ toString p.line ++ ":" ++ toString p.column
    | none => ""
  d.problem.stage ++ " error" ++ place ++ ": " ++ d.problem.message

def report (ds : List Diagnostic) : String := "; ".intercalate (ds.map text)

end Diagnostic

end WireSpec
