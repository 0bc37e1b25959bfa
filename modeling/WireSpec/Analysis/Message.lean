import WireSpec.Analysis.Fields
/-!
# Planning messages

A message has the fields of the messages that it extends, the furthest first, and then its own.
-/

namespace WireSpec

def messagesBut (name : String) (messages : List MessageDecl) : List MessageDecl :=
  messages.filter (·.name != name)

theorem length_messagesBut_lt {name : String} {messages : List MessageDecl}
    (h : messages.any (·.name == name) = true) :
    (messagesBut name messages).length < messages.length := by
  obtain ⟨m, hm, heq⟩ := List.any_eq_true.mp h
  refine List.length_filter_lt_length_iff_exists.mpr ⟨m, hm, ?_⟩
  simpa using heq

/-- The messages that `current` extends, nearest first; none of them may come again.  A message
that is not known, or is met again, is reported and ends the chain.  `origin` is where the chain
began. -/
def basesFrom (p : Protocol) (origin current : MessageDecl) (unvisited : List MessageDecl) :
    Checked (List MessageDecl) :=
  match current.base with
  | none => pure []
  | some name =>
      match p.findMessage? name with
      | none => do
          .reportAt current.position (.unknownBase name current.name)
          return []
      | some base =>
          if _h : unvisited.any (·.name == base.name) then do
            let further ← basesFrom p origin base (messagesBut base.name unvisited)
            return base :: further
          else do
            .reportAt origin.position (.inheritanceCycle base.name)
            return []
termination_by unvisited.length
decreasing_by exact length_messagesBut_lt ‹_›

/-- All fields of a message in the order of their bytes. -/
def allFields (p : Protocol) (m : MessageDecl) : Checked (List FieldDecl) := do
  let bases ← basesFrom p m m (messagesBut m.name p.messages)
  return (m :: bases).reverse.flatMap (·.fields)

/-- Each field with the names of those before it. -/
def sitesFrom (before : List String) : List FieldDecl → List FieldSite
  | [] => []
  | decl :: rest =>
      { decl, before, isLast := rest.isEmpty } :: sitesFrom (before ++ [decl.name]) rest

namespace Context

def planFields (c : Context) : List FieldSite → Checked (List FieldPlan)
  | [] => pure []
  | s :: rest => do
      let first ← s.plan c
      let later ← c.planFields rest
      return first :: later

/-- A string is a template; any other expression is displayed as the text of its value. -/
def display (c : Context) (names : List String) : Expr → Checked Display
  | .literal position (.string text) =>
      match (Template.parse text.toList).bindNames (lastPlace? names) with
      | .ok t => pure (.template t)
      | .error name => do
          .reportAt position (.unknownIdentifier name)
          return .formula (.const .null)
  | e => do return .formula (← c.bind (.fields names) e)

/-- A word that is not bound to anything is the name of a color. -/
def color (c : Context) (names : List String) (e : Expr) : Checked Formula :=
  match e with
  | .name _ word =>
      match c.lookup (.fields names) word with
      | .unbound => pure (.const (.string word))
      | _ => c.bind (.fields names) e
  | e => c.bind (.fields names) e

/-- Of several actions of one kind, the last counts. -/
def actions (c : Context) (names : List String) (r : Rule) :
    List (ActionKind × Expr) → Checked Rule
  | [] => pure r
  | (.display, e) :: rest => do
      let display ← c.display names e
      c.actions names { r with display := some display } rest
  | (.color, e) :: rest => do
      let color ← c.color names e
      c.actions names { r with color := some color } rest

def rule (c : Context) (names : List String) (decl : RuleDecl) : Checked Rule := do
  let condition ← c.bind (.fields names) decl.condition
  c.actions names { condition, display := none, color := none } decl.actions

def rules (c : Context) (names : List String) : List RuleDecl → Checked (List Rule)
  | [] => pure []
  | decl :: rest => do
      let first ← c.rule names decl
      let later ← c.rules names rest
      return first :: later

/-- The plan of a message with all rules of its protocol. -/
def plan (c : Context) (p : Protocol) (m : MessageDecl) : Checked Plan := do
  let decls ← allFields p m
  .each (fun (f : FieldDecl) => .reportAt f.position (.duplicateField f.name m.name))
    (repeatedBy (·.name) [] decls)
  let fields ← c.planFields (sitesFrom [] decls)
  let rules ← c.rules (decls.map (·.name)) (p.rules.getD [])
  return { fields, rules }

end Context

end WireSpec
