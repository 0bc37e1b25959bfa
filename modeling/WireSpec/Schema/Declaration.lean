import WireSpec.Schema.Expression
/-!
# Reading declarations

A definition is one protocol with declarations in its body.  Reading goes on after a syntax error,
so that one pass reports all of them; a declaration whose heading cannot be read is left out, and
one with a problem in its body keeps the parts that could be read.
-/

namespace WireSpec.Declaration

open WireSpec.Parser

/-- Whether the next token belongs to the body that is being read. -/
def inBody (tokens : List Token) : Bool :=
  tokens.head?.any (·.kind.staysInBody)

/-- Reads items up to the end of the body; those that cannot be read are left out. -/
def body {α : Type} (item : Parser (Option α)) : Parser (List α) := do
  let items ← sequence inBody item
  return items.filterMap id

/-! ### Imports and enums -/

def importAlias : Parser (Option String) := do
  if ← eatKeyword .asAlias then
    match ← name? with
    | some name => return some name
    | none =>
        reportHere .importAlias
        return none
  else return none

def importDecl : Parser (Option ImportDecl) := do
  let position := (← advance).position
  match (← peek).kind with
  | .string path =>
      let _ ← advance
      let localName ← importAlias
      unless ← expect .endImport do skip Skip.statement
      return some { path, localName, position }
  | _ =>
      reportHere .importPath
      skip Skip.statement
      return none

def enumMember : Parser (Option (String × Expr)) := do
  match ← name? with
  | none =>
      reportHere .memberName
      skip Skip.enumMember
      return none
  | some name =>
      if ← expect (.assignMember name) then
        let value ← Expression.expression
        unless ← eat .comma do
          unless ← atKind (.symbol .braceClose) do
            reportHere .memberEnd
            skip Skip.enumMember
        return some (name, value)
      else
        skip Skip.enumMember
        return none

def enumDecl : Parser (Option EnumDecl) := do
  let position := (← advance).position
  let name ← nameOr .enumName
  if ← expect .openEnum then
    let members ← body enumMember
    let _ ← expect .closeEnum
    return some { name, members, position }
  else
    skip Skip.declaration
    return none

/-! ### Messages -/

/-- The name is taken from the kind of the first token; of a token that was scanned it is also the
text (`Scan.text_of_name?`). -/
def modifier : Parser Modifier := do
  let token ← advance
  let name := token.kind.name?.getD ""
  let _ ← advance
  let arguments ← Expression.arguments (.closeModifier name)
  return { name, arguments, position := token.position }

/-- A modifier is a name with an opening parenthesis behind it. -/
def startsModifier : List Token → Bool
  | name :: opening :: _ => name.kind.name?.isSome && opening.kind == .symbol .parenOpen
  | _ => false

/-- Reads the type of a field that begins at `start`.  The first result says whether the field can
be read on; the second is the type, where it is one. -/
def fieldType (start : Position) : Parser (Bool × Option ScalarType) := do
  match (← peek).kind with
  | .keyword (.type type) =>
      let _ ← advance
      return (true, some type)
  | .identifier word =>
      if (← peekSecond).kind.name?.isSome then
        let token ← advance
        report token.position (.unknownFieldType word)
      else report start (.missingFieldType word)
      return (true, none)
  | _ =>
      reportHere .fieldType
      return (false, none)

/-- Reads the semicolon behind a field.  In front of another field or the end of the message only
the semicolon is missing. -/
def fieldEnd (name : String) : Parser Unit := do
  unless ← eat .semicolon do
    reportHere (.fieldEnd name)
    let kind := (← peek).kind
    unless kind.startsField || kind == .symbol .braceClose do skip Skip.statement

def field : Parser (Option FieldDecl) := do
  let position := (← peek).position
  let optional ← eatKeyword .optional
  let (goesOn, type) ← fieldType position
  if goesOn then
    match ← name? with
    | some name =>
        let modifiers ← sequence startsModifier modifier
        fieldEnd name
        return type.map fun type => { type, name, optional, modifiers, position }
    | none =>
        reportHere .fieldName
        skip Skip.statement
        return none
  else
    skip Skip.statement
    return none

def messageItem : Parser (Option FieldDecl) := do
  if ← eatKind .invalid then return none
  else field

def baseName : Parser (Option String) := do
  if ← eatKeyword .extendsBase then
    match ← name? with
    | some name => return some name
    | none =>
        reportHere .baseName
        return none
  else return none

def messageDecl : Parser (Option MessageDecl) := do
  let position := (← advance).position
  let name ← nameOr .messageName
  let base ← baseName
  if ← expect .openMessage then
    let fields ← body messageItem
    let _ ← expect .closeMessage
    return some { name, base, fields, position }
  else
    skip Skip.declaration
    return none

/-! ### Rules -/

def actionKind? : TokenKind → Option ActionKind
  | .keyword (.modifier .display) => some .display
  | .keyword (.modifier .color) => some .color
  | _ => none

def action : Parser (Option (ActionKind × Expr)) := do
  match actionKind? (← peek).kind with
  | some kind =>
      let _ ← advance
      let value ← Expression.expression
      unless ← expect .endAction do skip Skip.statement
      return some (kind, value)
  | none =>
      reportHere .action
      skip Skip.statement
      return none

/-- A declaration inside the body of a rule means that the body was never closed. -/
def rule : Parser (Option RuleDecl) := do
  let position := (← advance).position
  unless ← expect .openCondition do
    skip Skip.declaration
    return none
  let condition ← Expression.expression
  unless ← expect .closeCondition do
    skip Skip.declaration
    return none
  unless ← expect .openRule do
    skip Skip.declaration
    return none
  let actions ← body action
  if (← peek).kind.startsDeclaration then
    reportHere .action
    return none
  else
    let _ ← expect .closeRule
    return some { condition, actions, position }

def ruleItem : Parser (Option RuleDecl) := do
  if ← atKind (.keyword .when) then rule
  else
    reportHere .rule
    skip Skip.declaration
    return none

def parserSection : Parser (List RuleDecl) := do
  let _ ← advance
  if ← expect .openParser then
    let rules ← body ruleItem
    let _ ← expect .closeParser
    return rules
  else
    skip Skip.declaration
    return []

/-! ### Protocols -/

/-- The text of a `version` or `description`: a string, or a number or a word as it is written. -/
def metaText? (token : Token) : Option String :=
  match token.kind with
  | .string s => some s
  | .integer _ | .float _ | .identifier _ => some token.text
  | _ => none

def metaValue : Parser (Option String) := do
  let word := (← advance).text
  unless ← eat .assign do
    let _ ← eat .colon
  match metaText? (← peek) with
  | some value =>
      let _ ← advance
      let _ ← eat .semicolon
      return some value
  | none =>
      reportHere (.metaValue word)
      skip Skip.statement
      return none

inductive Item where
  | version (text : Option String)
  | description (text : Option String)
  | importDecl (decl : ImportDecl)
  | enumDecl (decl : EnumDecl)
  | messageDecl (decl : MessageDecl)
  | parserSection (rules : List RuleDecl)

def item : Parser (Option Item) := do
  match (← peek).kind with
  | .keyword .enum => return (← enumDecl).map .enumDecl
  | .keyword .message => return (← messageDecl).map .messageDecl
  | .keyword .parser => return some (.parserSection (← parserSection))
  | .keyword .importFile => return (← importDecl).map .importDecl
  | .identifier "version" => return some (.version (← metaValue))
  | .identifier "description" => return some (.description (← metaValue))
  | .invalid =>
      let _ ← advance
      return none
  | _ =>
      reportHere .declaration
      skip Skip.declaration
      return none

/-- Adds an item behind those that a protocol has.  The last version and the last description
count, and the parser sections are joined. -/
def addItem (p : Protocol) : Item → Protocol
  | .version text => { p with version := text }
  | .description text => { p with description := text }
  | .importDecl decl => { p with imports := p.imports ++ [decl] }
  | .enumDecl decl => { p with enums := p.enums ++ [decl] }
  | .messageDecl decl => { p with messages := p.messages ++ [decl] }
  | .parserSection rules => { p with rules := some (p.rules.getD [] ++ rules) }

def emptyProtocol (name : String) : Protocol where
  name := name
  version := none
  description := none
  imports := []
  enums := []
  messages := []
  rules := none

/-- The body of a protocol ends at a closing brace only. -/
def inProtocol (tokens : List Token) : Bool :=
  tokens.head?.any fun t => t.kind != .endOfInput && t.kind != .symbol .braceClose

def protocol : Parser (Option Protocol) := do
  skip Skip.invalid
  if ← atKind .endOfInput then
    reportHere .protocolDeclaration
    return none
  unless ← eatKeyword .protocol do reportHere .protocolKeyword
  let name ← nameOr .protocolName
  let _ ← expect .openProtocol
  let items ← sequence inProtocol item
  let _ ← expect .closeProtocol
  skip Skip.invalid
  unless ← atKind .endOfInput do reportHere .endOfDefinition
  return some ((items.filterMap id).foldl addItem (emptyProtocol name))

end WireSpec.Declaration

namespace WireSpec.Protocol

/-- Reads a protocol from tokens.  Where tokens run out, problems are reported at the last one. -/
def parse (tokens : List Token) : Outcome (Option Protocol) :=
  Declaration.protocol.run ((tokens.getLast?.map (·.position)).getD .unknown) tokens

end WireSpec.Protocol
