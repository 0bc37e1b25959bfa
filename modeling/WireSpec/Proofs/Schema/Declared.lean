import WireSpec.Schema.Declaration
import WireSpec.Proofs.Schema.Soundness
/-!
# The expressions of a definition

What holds of every expression that is read without a problem holds of all expressions of a
definition that is read without one, wherever in the definition they stand: the grammar derives them
within the limit of nesting, and the tokens of the definition spell them.
-/

namespace WireSpec

/-- All expressions that a protocol has been given, by where they stand. -/
def Protocol.expressions (p : Protocol) : List Expr :=
  (p.enums.flatMap fun e => e.members.map (·.2)) ++
  (p.messages.flatMap fun m => m.fields.flatMap fun f => f.modifiers.flatMap (·.arguments)) ++
  (p.rules.getD []).flatMap fun r => r.condition :: r.actions.map (·.2)

namespace Parser

/-- Reading in a text without a problem gives only values with a property. -/
def Yields {α : Type} (source : List Token) (p : Parser α) (P : α → Prop) : Prop :=
  ∀ close tokens, tokens <:+ source → (p.run close tokens).problems = [] →
    P (p.run close tokens).value

namespace Yields

variable {α β : Type} {source : List Token} {p : Parser α} {P : α → Prop} {f : α → Parser β}
  {Q : β → Prop}

theorem trivial (p : Parser α) : Yields source p fun _ => True := fun _ _ _ _ => True.intro

theorem pure {a : α} (h : P a) : Yields source (Pure.pure a) P := fun _ _ _ _ => h

theorem bind (hp : Yields source p P) (hf : ∀ a, P a → Yields source (f a) Q) :
    Yields source (p >>= f) Q := by
  intro close tokens hsuffix hclean
  obtain ⟨hfirst, hsecond⟩ := List.append_eq_nil_iff.mp hclean
  exact hf _ (hp close tokens hsuffix hfirst) close _
    ((p.rest_suffix close tokens).trans hsuffix) hsecond

/-- What is read first does not matter. -/
theorem after (hf : ∀ a, Yields source (f a) Q) : Yields source (p >>= f) Q :=
  (trivial p).bind fun a _ => hf a

theorem ite {c : Prop} [Decidable c] {p q : Parser α} (hp : c → Yields source p P)
    (hq : ¬c → Yields source q P) : Yields source (if c then p else q) P := by
  split
  · exact hp ‹_›
  · exact hq ‹_›

/-- Nothing can follow a problem. -/
theorem reportHere (wanted : Expectation) (f : Unit → Parser β) (Q : β → Prop) :
    Yields source (Parser.reportHere wanted >>= f) Q := by
  intro close tokens _ hclean
  simp [Parser.reportHere, peek, Parser.report] at hclean

theorem sequence {goesOn : List Token → Bool} (h : Yields source p P) :
    Yields source (Parser.sequence goesOn p) fun items => ∀ a ∈ items, P a := by
  intro close tokens
  change tokens <:+ source → (sequenceRun goesOn p close tokens).problems = [] →
    ∀ a ∈ (sequenceRun goesOn p close tokens).value, P a
  fun_induction sequenceRun goesOn p close tokens with
  | case1 => simp
  | case2 token tail hgoes first later ih =>
      intro hsuffix hclean
      obtain ⟨hfirst, hlater⟩ := List.append_eq_nil_iff.mp hclean
      have hremaining : remaining (token :: tail) first.rest <:+ token :: tail :=
        remaining_suffix (p.rest_suffix close (token :: tail))
      exact List.forall_mem_cons.mpr ⟨h close (token :: tail) hsuffix hfirst,
        ih (hremaining.trans hsuffix) hlater⟩
  | case3 => simp

end Yields

end Parser

open WireSpec.Parser

variable {source : List Token} {P : Expr → Prop}

theorem Expression.yields_arguments (h : Yields source expression P) (close : Mark) :
    Yields source (arguments close) fun args => ∀ e ∈ args, P e := by
  have hitems : Yields source (commaSeparated expression) fun args => ∀ e ∈ args, P e := by
    refine h.bind fun first hfirst => ?_
    refine Yields.bind (Yields.sequence (.after fun _ => h)) fun later hlater => ?_
    exact .pure (List.forall_mem_cons.mpr ⟨hfirst, hlater⟩)
  refine .after fun empty => .ite (fun _ => .pure (by simp)) fun _ => ?_
  refine hitems.bind fun items hgiven => .after fun closed => ?_
  exact .ite (fun _ => .pure hgiven) fun _ => .after fun _ => .pure hgiven

namespace Declaration

theorem yields_body {α : Type} {item : Parser (Option α)} {P : α → Prop}
    (h : Yields source item fun x => ∀ a ∈ x, P a) :
    Yields source (body item) fun items => ∀ a ∈ items, P a := by
  refine h.sequence.bind fun items hitems => .pure fun a ha => ?_
  obtain ⟨x, hx, hxa⟩ := List.mem_filterMap.mp ha
  exact hitems x hx a hxa

/-- All expressions of an item have a property. -/
def Item.All (P : Expr → Prop) : Item → Prop
  | .enumDecl e => ∀ m ∈ e.members, P m.2
  | .messageDecl d => ∀ f ∈ d.fields, ∀ m ∈ f.modifiers, ∀ e ∈ m.arguments, P e
  | .parserSection rules => ∀ r ∈ rules, P r.condition ∧ ∀ a ∈ r.actions, P a.2
  | .version _ | .description _ | .importDecl _ => True

theorem all_addItem {p : Protocol} {i : Item} (hp : ∀ e ∈ p.expressions, P e)
    (hi : i.All P) : ∀ e ∈ (addItem p i).expressions, P e := by
  intro e he
  cases i with
  | version | description | importDecl => exact hp e he
  | enumDecl decl =>
      simp only [addItem, Protocol.expressions, List.flatMap_append, List.mem_append] at he hp
      rcases he with ((he | he) | he) | he
      · exact hp e (Or.inl (Or.inl he))
      · obtain ⟨m, hm, rfl⟩ : ∃ m ∈ decl.members, m.2 = e := by simpa using he
        exact hi m hm
      · exact hp e (Or.inl (Or.inr he))
      · exact hp e (Or.inr he)
  | messageDecl decl =>
      simp only [addItem, Protocol.expressions, List.flatMap_append, List.mem_append] at he hp
      rcases he with (he | he | he) | he
      · exact hp e (Or.inl (Or.inl he))
      · exact hp e (Or.inl (Or.inr he))
      · obtain ⟨f, hf, m, hm, he⟩ : ∃ f ∈ decl.fields, ∃ m ∈ f.modifiers, e ∈ m.arguments := by
          simpa using he
        exact hi f hf m hm e he
      · exact hp e (Or.inr he)
  | parserSection rules =>
      simp only [addItem, Protocol.expressions, Option.getD_some, List.flatMap_append,
        List.mem_append] at he hp
      rcases he with he | he | he
      · exact hp e (Or.inl he)
      · exact hp e (Or.inr he)
      · obtain ⟨r, hr, he⟩ := List.mem_flatMap.mp he
        obtain ⟨hcondition, hactions⟩ := hi r hr
        rcases List.mem_cons.mp he with rfl | he
        · exact hcondition
        · obtain ⟨a, ha, rfl⟩ := List.mem_map.mp he
          exact hactions a ha

theorem all_foldl_addItem {items : List Item} {p : Protocol}
    (hp : ∀ e ∈ p.expressions, P e) (hitems : ∀ i ∈ items, i.All P) :
    ∀ e ∈ (items.foldl addItem p).expressions, P e := by
  induction items generalizing p with
  | nil => exact hp
  | cons i items ih =>
      obtain ⟨hi, hitems⟩ := List.forall_mem_cons.mp hitems
      exact ih (all_addItem hp hi) hitems

section

variable (h : Yields source Expression.expression P)

include h

theorem yields_enumMember : Yields source enumMember fun x => ∀ m ∈ x, P m.2 := by
  refine .after fun name => ?_
  cases name with
  | none => exact .reportHere _ _ _
  | some name =>
      refine .after fun assigned => .ite (fun _ => ?_) fun _ => .after fun _ => .pure (by simp)
      refine h.bind fun value hvalue => .after fun comma => ?_
      have hsome : ∀ m ∈ some (name, value), P m.2 := by simpa using hvalue
      dsimp only
      refine .ite (fun _ => .pure hsome) fun _ => .after fun closed => ?_
      exact .ite (fun _ => .pure hsome) fun _ => .reportHere _ _ _

theorem yields_enumDecl :
    Yields source enumDecl fun x => ∀ e ∈ x, ∀ m ∈ e.members, P m.2 := by
  refine .after fun token => .after fun name => .after fun opened => ?_
  refine .ite (fun _ => ?_) fun _ => .after fun _ => .pure (by simp)
  refine (yields_body (yields_enumMember h)).bind fun members hmembers => .after fun closed => ?_
  exact .pure (by simpa using hmembers)

theorem yields_modifier : Yields source modifier fun m => ∀ e ∈ m.arguments, P e := by
  refine .after fun token => .after fun opening => ?_
  exact (Expression.yields_arguments h _).bind fun args hargs => .pure hargs

theorem yields_field :
    Yields source field fun x => ∀ f ∈ x, ∀ m ∈ f.modifiers, ∀ e ∈ m.arguments, P e := by
  refine .after fun token => .after fun optional => .after fun ⟨goesOn, type⟩ => ?_
  refine .ite (fun _ => .after fun name => ?_) fun _ => .after fun _ => .pure (by simp)
  cases name with
  | none => exact .reportHere _ _ _
  | some name =>
      refine (yields_modifier h).sequence.bind fun modifiers hmodifiers => .after fun _ => ?_
      refine .pure fun f hf m hm => ?_
      obtain ⟨_, _, rfl⟩ := Option.map_eq_some_iff.mp hf
      exact hmodifiers m hm

theorem yields_messageItem :
    Yields source messageItem fun x => ∀ f ∈ x, ∀ m ∈ f.modifiers, ∀ e ∈ m.arguments, P e :=
  .after fun invalid => .ite (fun _ => .pure (by simp)) fun _ => yields_field h

theorem yields_messageDecl :
    Yields source messageDecl fun x => ∀ d ∈ x, ∀ f ∈ d.fields, ∀ m ∈ f.modifiers,
      ∀ e ∈ m.arguments, P e := by
  refine .after fun token => .after fun name => .after fun base => .after fun opened => ?_
  refine .ite (fun _ => ?_) fun _ => .after fun _ => .pure (by simp)
  refine (yields_body (yields_messageItem h)).bind fun fields hfields => .after fun closed => ?_
  exact .pure (by simpa using hfields)

theorem yields_action : Yields source action fun x => ∀ a ∈ x, P a.2 := by
  refine .after fun token => ?_
  cases actionKind? token.kind with
  | none => exact .reportHere _ _ _
  | some kind =>
      refine .after fun _ => h.bind fun value hvalue => ?_
      have hsome : ∀ a ∈ some (kind, value), P a.2 := by simpa using hvalue
      dsimp only
      refine .after fun ended => .ite (fun _ => .pure hsome) fun _ => .after fun _ => .pure hsome

theorem yields_rule :
    Yields source rule fun x => ∀ r ∈ x, P r.condition ∧ ∀ a ∈ r.actions, P a.2 := by
  have hnone : ∀ r ∈ (none : Option RuleDecl), P r.condition ∧ ∀ a ∈ r.actions, P a.2 := by simp
  refine .after fun token => .after fun opened => ?_
  refine .ite (fun _ => ?_) fun _ => .after fun _ => .pure hnone
  refine h.bind fun condition hcondition => .after fun closed => ?_
  refine .ite (fun _ => .after fun opened => ?_) fun _ => .after fun _ => .pure hnone
  refine .ite (fun _ => ?_) fun _ => .after fun _ => .pure hnone
  refine (yields_body (yields_action h)).bind fun actions hactions => .after fun next => ?_
  refine .ite (fun _ => .reportHere _ _ _) fun _ => .after fun closed => ?_
  exact .pure fun r hr => Option.some.inj hr ▸ ⟨hcondition, hactions⟩

theorem yields_ruleItem :
    Yields source ruleItem fun x => ∀ r ∈ x, P r.condition ∧ ∀ a ∈ r.actions, P a.2 :=
  .after fun _ => .ite (fun _ => yields_rule h) fun _ => .reportHere _ _ _

theorem yields_parserSection :
    Yields source parserSection fun rules =>
      ∀ r ∈ rules, P r.condition ∧ ∀ a ∈ r.actions, P a.2 := by
  refine .after fun token => .after fun opened => ?_
  refine .ite (fun _ => ?_) fun _ => .after fun _ => .pure (by simp)
  exact (yields_body (yields_ruleItem h)).bind fun rules hrules => .after fun closed => .pure hrules

theorem yields_item : Yields source item fun x => ∀ i ∈ x, i.All P := by
  refine .after fun token => ?_
  split
  · refine (yields_enumDecl h).bind fun x hx => .pure fun i hi => ?_
    obtain ⟨e, he, rfl⟩ := Option.map_eq_some_iff.mp hi
    exact hx e he
  · refine (yields_messageDecl h).bind fun x hx => .pure fun i hi => ?_
    obtain ⟨d, hd, rfl⟩ := Option.map_eq_some_iff.mp hi
    exact hx d hd
  · exact (yields_parserSection h).bind fun rules hrules => .pure fun i hi =>
      Option.some.inj hi ▸ hrules
  · refine .after fun x => .pure fun i hi => ?_
    obtain ⟨d, _, rfl⟩ := Option.map_eq_some_iff.mp hi
    trivial
  · exact .after fun x => .pure fun i hi => Option.some.inj hi ▸ trivial
  · exact .after fun x => .pure fun i hi => Option.some.inj hi ▸ trivial
  · exact .after fun _ => .pure (by simp)
  · exact .reportHere _ _ _

/-- Nothing is read as no protocol without a problem. -/
theorem yields_protocol :
    Yields source protocol fun x => ∃ p, x = some p ∧ ∀ e ∈ p.expressions, P e := by
  have hfrom : Yields source (do
      let name ← nameOr .protocolName
      let _ ← expect .openProtocol
      let items ← Parser.sequence inProtocol item
      let _ ← expect .closeProtocol
      skip Skip.invalid
      unless ← atKind .endOfInput do reportHere .endOfDefinition
      return some ((items.filterMap id).foldl addItem (emptyProtocol name)))
      fun x => ∃ p, x = some p ∧ ∀ e ∈ p.expressions, P e := by
    refine .after fun name => .after fun opened => ?_
    refine (yields_item h).sequence.bind fun items hitems => .after fun closed => .after fun _ => ?_
    have hall : ∀ e ∈ ((items.filterMap id).foldl addItem (emptyProtocol name)).expressions,
        P e := by
      refine all_foldl_addItem (by simp [Protocol.expressions, emptyProtocol]) fun i hi => ?_
      obtain ⟨x, hx, hxi⟩ := List.mem_filterMap.mp hi
      exact hitems x hx i hxi
    dsimp only
    refine .after fun ended => .ite (fun _ => .pure ⟨_, rfl, hall⟩) fun _ => ?_
    exact .after fun _ => .pure ⟨_, rfl, hall⟩
  refine .after fun _ => .after fun ended => .ite (fun _ => .reportHere _ _ _) fun _ => ?_
  dsimp only
  exact .after fun found => .ite (fun _ => hfrom) fun _ => .reportHere _ _ _

end

end Declaration

theorem Protocol.exists_of_parse {tokens : List Token}
    (h : Yields tokens Expression.expression P) (hclean : (Protocol.parse tokens).problems = []) :
    ∃ p, (Protocol.parse tokens).value = some p ∧ ∀ e ∈ p.expressions, P e :=
  Declaration.yields_protocol h _ tokens (List.suffix_refl tokens) hclean

/-- The grammar derives an expression within the limit of nesting. -/
def Expr.Derived (e : Expr) : Prop :=
  ∃ t : Grammar.Phrase .whole, t.value = e.bare ∧ t.need ≤ nestingLimit

/-- Every expression of a definition without syntax errors is derived by the grammar within the
limit of nesting. -/
theorem Protocol.derived_of_parse {tokens : List Token} {p : Protocol}
    (hclean : (Protocol.parse tokens).problems = []) (hp : (Protocol.parse tokens).value = some p) :
    ∀ e ∈ p.expressions, e.Derived := by
  have hexpression : Yields tokens Expression.expression Expr.Derived := by
    intro close read _ hread
    obtain ⟨t, _, _, _, hvalue, hneed⟩ := Grammar.expression_derives hread
    exact ⟨t, hvalue, hneed⟩
  obtain ⟨p', hp', hderived⟩ := exists_of_parse hexpression hclean
  obtain rfl := Option.some.inj (hp'.symm.trans hp)
  exact hderived

end WireSpec
