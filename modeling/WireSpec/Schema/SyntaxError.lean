import WireSpec.Token
/-!
# Syntax errors

Nearly every syntax error says what the definition should go on with and which token stands there
instead.
-/

namespace WireSpec

/-- The bracket or separator that should come next, by what it would do. -/
inductive Mark where
  | openProtocol | closeProtocol
  | endImport
  | openEnum | assignMember (member : String) | closeEnum
  | openMessage | closeMessage
  | closeModifier (modifier : String)
  | openParser | closeParser
  | openCondition | closeCondition | openRule | closeRule
  | endAction
  | closeCall (function : String) | closeIndex | closeGroup
  deriving DecidableEq, Repr

namespace Mark

def symbol : Mark → Symbol
  | openProtocol | openEnum | openMessage | openParser | openRule => .braceOpen
  | closeProtocol | closeEnum | closeMessage | closeParser | closeRule => .braceClose
  | endImport | endAction => .semicolon
  | assignMember _ => .assign
  | openCondition => .parenOpen
  | closeModifier _ | closeCondition | closeCall _ | closeGroup => .parenClose
  | closeIndex => .bracketClose

def purpose : Mark → String
  | openProtocol => "to open protocol body"
  | closeProtocol => "to close protocol body"
  | endImport => "after import"
  | openEnum => "to open enum body"
  | assignMember member => "after enum member '" ++ member ++ "'"
  | closeEnum => "to close enum body"
  | openMessage => "to open message body"
  | closeMessage => "to close message body"
  | closeModifier modifier => "to close modifier '" ++ modifier ++ "'"
  | openParser => "to open parser section"
  | closeParser => "to close parser section"
  | openCondition => "after 'when'"
  | closeCondition => "to close 'when' condition"
  | openRule => "to open 'when' body"
  | closeRule => "to close 'when' body"
  | endAction => "after action"
  | closeCall function => "to close call to '" ++ function ++ "'"
  | closeIndex => "to close index"
  | closeGroup => "to close parenthesised expression"

end Mark

/-- What a definition should go on with. -/
inductive Expectation where
  | protocolDeclaration | protocolKeyword | protocolName | declaration | endOfDefinition
  | metaValue (word : String)
  | importPath | importAlias
  | enumName | memberName | memberEnd
  | messageName | baseName
  | fieldType | fieldName | fieldEnd (field : String)
  | rule | action
  | accessedMember | expression
  | mark (mark : Mark)
  deriving DecidableEq, Repr

def Expectation.text : Expectation → String
  | protocolDeclaration => "expected 'protocol' declaration"
  | protocolKeyword => "expected 'protocol'"
  | protocolName => "expected protocol name"
  | declaration =>
      "expected 'message', 'enum', 'parser', 'import', 'version' or 'description'"
  | endOfDefinition => "expected end of input after protocol definition"
  | metaValue word => "expected " ++ word ++ " value"
  | importPath => "expected import path string"
  | importAlias => "expected alias name after 'as'"
  | enumName => "expected enum name"
  | memberName => "expected enum member name"
  | memberEnd => "expected ',' or '\x7d' after enum member"
  | messageName => "expected message name"
  | baseName => "expected base message name after 'extends'"
  | fieldType => "invalid field type: expected a type name"
  | fieldName => "expected field name"
  | fieldEnd field => "expected ';' after field '" ++ field ++ "'"
  | rule => "expected 'when' rule"
  | action => "expected 'display' or 'color' action"
  | accessedMember => "expected member name after '.'"
  | expression => "expected expression"
  | mark m => "expected '" ++ m.symbol.text ++ "' " ++ m.purpose

def nestingLimit : Nat := 100

inductive SyntaxError where
  | unexpected (wanted : Expectation) (found : TokenKind)
  | nestedTooDeeply
  /-- Two names in a row, the first of which should be a type. -/
  | unknownFieldType (word : String)
  /-- A name where a type should precede it. -/
  | missingFieldType (name : String)
  deriving DecidableEq

def SyntaxError.message : SyntaxError → String
  | unexpected wanted found => wanted.text ++ ", found " ++ found.shown
  | nestedTooDeeply =>
      "expression nested too deeply (limit " ++ toString nestingLimit ++ " levels)"
  | unknownFieldType word => "invalid field type '" ++ word ++ "'"
  | missingFieldType name => "invalid field type: expected a type name before '" ++ name ++ "'"

end WireSpec
