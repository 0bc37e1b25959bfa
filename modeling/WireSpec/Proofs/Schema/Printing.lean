import WireSpec.Schema.Declaration
import WireSpec.Proofs.Schema.Grammar
/-!
# Printing definitions

A protocol is printed as the kinds of the tokens that say it: first the version and the
description, then the imports, enums and messages, then the parser section.  Parentheses stand only
where an expression binds looser than its place allows.  What is printed of an expression is a
phrase of the grammar.
-/

namespace WireSpec

open Grammar

/-! ### Names -/

/-- A modifier keyword is written as such also where it is a name. -/
def Grammar.Name.ofText (text : String) : Name :=
  match ModifierWord.all.find? (·.word = text) with
  | some word => .modifier word
  | none => .identifier text

theorem Grammar.Name.text_ofText (text : String) : (Name.ofText text).text = text := by
  unfold Name.ofText
  split
  · rename_i word hfind
    have hword := List.find?_some hfind
    exact of_decide_eq_true hword
  · rfl

def nameKind (text : String) : TokenKind := (Name.ofText text).kind

theorem name?_nameKind (text : String) : (nameKind text).name? = some text :=
  name?_eq_some.mpr ⟨_, rfl, Name.text_ofText text⟩

/-! ### Expressions -/

/-- How loosely an expression binds: not at all if it is a primary or an access, then prefix
operators, then the levels of binary operators. -/
def Expr.rank : Expr → Nat
  | .unary .. => 1
  | .binary op _ _ => operatorLevel op + 2
  | _ => 0

/-- An expression in a place that takes only what binds as tightly as `limit`. -/
def placed (limit rank : Nat) (word : List TokenKind) : List TokenKind :=
  if rank ≤ limit then word else .symbol .parenOpen :: word ++ [.symbol .parenClose]

/-- Words with commas between them. -/
def listed (words : List (List TokenKind)) : List TokenKind :=
  List.intercalate [.symbol .comma] words

mutual

/-- The tokens that an expression is printed as.  The operand to the right of an operator binds
tighter than the operator, since operators of one level group to the left. -/
def Expr.word : Expr → List TokenKind
  | .literal _ value => [literalKind value]
  | .name _ text => [nameKind text]
  | .unary _ op e => .symbol (prefixSymbol op) :: placed 1 e.rank e.word
  | .binary op l r =>
      placed (operatorLevel op + 2) l.rank l.word ++ .symbol (operatorSymbol op) ::
        placed (operatorLevel op + 1) r.rank r.word
  | .member o text => placed 0 o.rank o.word ++ [.symbol .dot, nameKind text]
  | .index o i =>
      placed 0 o.rank o.word ++ .symbol .bracketOpen :: i.word ++ [.symbol .bracketClose]
  | .slice o i j =>
      placed 0 o.rank o.word ++ .symbol .bracketOpen :: i.word ++ .symbol .dotDot :: j.word ++
        [.symbol .bracketClose]
  | .call _ function args =>
      nameKind function :: .symbol .parenOpen :: listed (Expr.words args) ++ [.symbol .parenClose]

def Expr.words : List Expr → List (List TokenKind)
  | [] => []
  | e :: rest => e.word :: Expr.words rest

end

theorem Expr.rank_le (e : Expr) : e.rank ≤ 11 := by
  cases e with
  | binary op l r => cases op <;> simp [rank, operatorLevel]
  | _ => simp [rank]

@[simp] theorem listed_singleton (word : List TokenKind) : listed [word] = word := by
  simp [listed]

theorem listed_cons_cons (word next : List TokenKind) (words : List (List TokenKind)) :
    listed (word :: next :: words) = word ++ .symbol .comma :: listed (next :: words) := by
  simp [listed, List.intercalate]

theorem listed_cons (word : List TokenKind) (words : List (List TokenKind)) :
    listed (word :: words) = word ++ words.flatMap (.symbol .comma :: ·) := by
  induction words generalizing word with
  | nil => simp
  | cons next words ih => rw [listed_cons_cons, ih, List.flatMap_cons, List.cons_append]

/-! ### What is printed is a phrase -/

/-- A phrase of some rank has this word and stands for this expression. -/
def IsPhrase (word : List TokenKind) (value : Expr) : (rank : Nat) → Prop
  | 0 => ∃ t : Phrase .accessed, t.word = word ∧ t.value = value
  | 1 => ∃ t : Phrase .unary, t.word = word ∧ t.value = value
  | k + 2 => ∃ t : Phrase (.binary (k + 1)), t.word = word ∧ t.value = value

namespace IsPhrase

variable {word : List TokenKind} {value : Expr} {rank limit : Nat}

theorem succ (h : IsPhrase word value rank) : IsPhrase word value (rank + 1) := by
  match rank, h with
  | 0, ⟨t, hword, hvalue⟩ => exact ⟨.unsigned t, hword, hvalue⟩
  | 1, ⟨t, hword, hvalue⟩ => exact ⟨.tighter (.operand t), hword, hvalue⟩
  | k + 2, ⟨t, hword, hvalue⟩ => exact ⟨.tighter t, hword, hvalue⟩

theorem mono (h : IsPhrase word value rank) (hle : rank ≤ limit) : IsPhrase word value limit := by
  induction hle with
  | refl => exact h
  | step _ ih => exact ih.succ

theorem whole (h : IsPhrase word value rank) (hle : rank ≤ 11) :
    ∃ t : Phrase .whole, t.word = word ∧ t.value = value :=
  h.mono hle

theorem primary (t : Phrase .primary) : IsPhrase t.word t.value 0 := ⟨.object t, rfl, rfl⟩

/-- In parentheses an expression can stand anywhere. -/
theorem placed (h : IsPhrase word value rank) (hle : rank ≤ 11) :
    IsPhrase (placed limit rank word) value limit := by
  unfold WireSpec.placed
  split
  · exact h.mono ‹_›
  · obtain ⟨t, rfl, rfl⟩ := h.whole hle
    exact (primary (.group t)).mono (Nat.zero_le limit)

/-- What stands to the right of an operator. -/
theorem binary {k : Nat} (h : IsPhrase word value (k + 1)) :
    ∃ t : Phrase (.binary k), t.word = word ∧ t.value = value := by
  match k, h with
  | 0, ⟨t, hword, hvalue⟩ => exact ⟨.operand t, hword, hvalue⟩
  | k + 1, h => exact h

end IsPhrase

mutual

theorem Expr.isPhrase : (e : Expr) → IsPhrase e.word e.bare e.rank
  | .literal _ value => by
      rw [word, bare]
      exact .primary (.literal value)
  | .name _ text => by
      have h := IsPhrase.primary (.name (.ofText text))
      simpa only [Phrase.word, Phrase.value, Name.text_ofText, word, bare, nameKind, rank] using h
  | .unary _ op e => by
      obtain ⟨t, hword, hvalue⟩ : IsPhrase _ _ 1 := (e.isPhrase).placed e.rank_le
      exact ⟨.signed op t, by rw [Phrase.word, hword, word], by rw [Phrase.value, hvalue, bare]⟩
  | .binary op l r => by
      obtain ⟨tl, hl, hlvalue⟩ : IsPhrase _ _ (operatorLevel op + 2) :=
        (l.isPhrase).placed l.rank_le
      have hright : IsPhrase _ _ (operatorLevel op + 1) := (r.isPhrase).placed r.rank_le
      obtain ⟨tr, hr, hrvalue⟩ := hright.binary
      exact ⟨.operation op rfl tl tr, by rw [Phrase.word, hl, hr, word],
        by rw [Phrase.value, hlvalue, hrvalue, bare]⟩
  | .member o text => by
      obtain ⟨t, hword, hvalue⟩ : IsPhrase _ _ 0 := (o.isPhrase).placed o.rank_le
      exact ⟨.member t (.ofText text), by rw [Phrase.word, hword, word]; rfl,
        by rw [Phrase.value, hvalue, Name.text_ofText, bare]⟩
  | .index o i => by
      obtain ⟨t, hword, hvalue⟩ : IsPhrase _ _ 0 := (o.isPhrase).placed o.rank_le
      obtain ⟨ti, hi, hivalue⟩ := (i.isPhrase).whole i.rank_le
      exact ⟨.index t ti, by rw [Phrase.word, hword, hi, word],
        by rw [Phrase.value, hvalue, hivalue, bare]⟩
  | .slice o i j => by
      obtain ⟨t, hword, hvalue⟩ : IsPhrase _ _ 0 := (o.isPhrase).placed o.rank_le
      obtain ⟨ti, hi, hivalue⟩ := (i.isPhrase).whole i.rank_le
      obtain ⟨tj, hj, hjvalue⟩ := (j.isPhrase).whole j.rank_le
      exact ⟨.slice t ti tj, by rw [Phrase.word, hword, hi, hj, word],
        by rw [Phrase.value, hvalue, hivalue, hjvalue, bare]⟩
  | .call _ function args => by
      rw [word, bare]
      cases hargs : args with
      | nil =>
          have h := IsPhrase.primary (.call (.ofText function))
          rw [Phrase.word, Phrase.value, Name.text_ofText] at h
          exact h
      | cons e rest =>
          obtain ⟨t, hword, hvalue⟩ := Expr.isPhrase_words args (by simp [hargs])
          have h := IsPhrase.primary (.callWith (.ofText function) t)
          rw [Phrase.word, Phrase.value, hword, hvalue, Name.text_ofText, hargs] at h
          exact h

theorem Expr.isPhrase_words : (args : List Expr) → args ≠ [] →
    ∃ t : Phrase .arguments, t.word = listed (Expr.words args) ∧ t.value = Expr.bareAll args
  | [e], _ => by
      obtain ⟨t, hword, hvalue⟩ := (e.isPhrase).whole e.rank_le
      refine ⟨.last t, ?_, ?_⟩
      · rw [Phrase.word, hword, words, words, listed_singleton]
      · rw [Phrase.value, hvalue]
        rfl
  | e :: next :: args, _ => by
      obtain ⟨t, hword, hvalue⟩ := (e.isPhrase).whole e.rank_le
      obtain ⟨targs, hargs, hargsvalue⟩ := Expr.isPhrase_words (next :: args) (by simp)
      refine ⟨.more t targs, ?_, ?_⟩
      · rw [Phrase.word, hword, hargs]
        exact (listed_cons_cons _ _ _).symm
      · rw [Phrase.value, hvalue, hargsvalue]
        rfl

end

/-- The tokens of an expression are a phrase that stands for it. -/
theorem Expr.exists_phrase (e : Expr) :
    ∃ t : Phrase .whole, t.word = e.word ∧ t.value = e.bare :=
  e.isPhrase.whole e.rank_le

/-- An expression whose tokens can be read within the limit of nesting. -/
def Expr.Shallow (e : Expr) : Prop := ∃ t : Phrase .whole, t.word = e.word ∧ t.need ≤ nestingLimit

/-! ### Declarations -/

def braced (word : List TokenKind) : List TokenKind :=
  .symbol .braceOpen :: word ++ [.symbol .braceClose]

/-- What may be missing, behind the keyword that announces it. -/
def announced (keyword : Keyword) : Option String → List TokenKind
  | some name => [.keyword keyword, nameKind name]
  | none => []

def ImportDecl.word (i : ImportDecl) : List TokenKind :=
  .keyword .importFile :: .string i.path :: announced .asAlias i.localName ++ [.symbol .semicolon]

def ImportDecl.bare (i : ImportDecl) : ImportDecl := { i with position := .unknown }

namespace EnumDecl

def memberWord (member : String × Expr) : List TokenKind :=
  nameKind member.1 :: .symbol .assign :: member.2.word

def word (e : EnumDecl) : List TokenKind :=
  .keyword .enum :: nameKind e.name :: braced (listed (e.members.map memberWord))

def bare (e : EnumDecl) : EnumDecl where
  name := e.name
  members := e.members.map (·.map id Expr.bare)
  position := .unknown

end EnumDecl

def Modifier.word (m : Modifier) : List TokenKind :=
  nameKind m.name :: .symbol .parenOpen :: listed (m.arguments.map Expr.word) ++
    [.symbol .parenClose]

def Modifier.bare (m : Modifier) : Modifier where
  name := m.name
  arguments := m.arguments.map Expr.bare
  position := .unknown

namespace FieldDecl

def word (f : FieldDecl) : List TokenKind :=
  (if f.optional then [.keyword .optional] else []) ++ .keyword (.type f.type) ::
    nameKind f.name :: f.modifiers.flatMap Modifier.word ++ [.symbol .semicolon]

def bare (f : FieldDecl) : FieldDecl :=
  { f with modifiers := f.modifiers.map Modifier.bare, position := .unknown }

def expressions (f : FieldDecl) : List Expr := f.modifiers.flatMap (·.arguments)

end FieldDecl

def MessageDecl.word (m : MessageDecl) : List TokenKind :=
  .keyword .message :: nameKind m.name :: announced .extendsBase m.base ++
    braced (m.fields.flatMap FieldDecl.word)

def MessageDecl.bare (m : MessageDecl) : MessageDecl :=
  { m with fields := m.fields.map FieldDecl.bare, position := .unknown }

def ActionKind.keyword : ActionKind → Keyword
  | .display => .modifier .display
  | .color => .modifier .color

namespace RuleDecl

def actionWord (action : ActionKind × Expr) : List TokenKind :=
  .keyword action.1.keyword :: action.2.word ++ [.symbol .semicolon]

def word (r : RuleDecl) : List TokenKind :=
  .keyword .when :: .symbol .parenOpen :: r.condition.word ++ .symbol .parenClose ::
    braced (r.actions.flatMap actionWord)

def bare (r : RuleDecl) : RuleDecl where
  condition := r.condition.bare
  actions := r.actions.map (·.map id Expr.bare)
  position := .unknown

def expressions (r : RuleDecl) : List Expr := r.condition :: r.actions.map (·.2)

end RuleDecl

namespace Declaration.Item

def metaWord (key : String) (text : Option String) : List TokenKind :=
  .identifier key :: text.toList.map .string ++ [.symbol .semicolon]

def word : Item → List TokenKind
  | .version text => metaWord "version" text
  | .description text => metaWord "description" text
  | .importDecl decl => decl.word
  | .enumDecl decl => decl.word
  | .messageDecl decl => decl.word
  | .parserSection rules => .keyword .parser :: braced (rules.flatMap RuleDecl.word)

def bare : Item → Item
  | .importDecl decl => .importDecl decl.bare
  | .enumDecl decl => .enumDecl decl.bare
  | .messageDecl decl => .messageDecl decl.bare
  | .parserSection rules => .parserSection (rules.map RuleDecl.bare)
  | item => item

def expressions : Item → List Expr
  | .enumDecl decl => decl.members.map (·.2)
  | .messageDecl decl => decl.fields.flatMap FieldDecl.expressions
  | .parserSection rules => rules.flatMap RuleDecl.expressions
  | _ => []

end Declaration.Item

namespace Protocol

open Declaration

/-- What stands in the body of a protocol, in the order in which it is printed. -/
def items (p : Protocol) : List Item :=
  p.version.toList.map (fun text => .version (some text)) ++
    p.description.toList.map (fun text => .description (some text)) ++
    p.imports.map .importDecl ++ p.enums.map .enumDecl ++ p.messages.map .messageDecl ++
    p.rules.toList.map .parserSection

def word (p : Protocol) : List TokenKind :=
  .keyword .protocol :: nameKind p.name :: braced (p.items.flatMap Item.word)

/-- A protocol without its positions. -/
def bare (p : Protocol) : Protocol where
  name := p.name
  version := p.version
  description := p.description
  imports := p.imports.map ImportDecl.bare
  enums := p.enums.map EnumDecl.bare
  messages := p.messages.map MessageDecl.bare
  rules := p.rules.map (·.map RuleDecl.bare)

end Protocol

namespace Declaration

theorem addItem_bare (p : Protocol) (i : Item) : (addItem p i).bare = addItem p.bare i.bare := by
  cases i with
  | parserSection rules => cases h : p.rules <;> simp [addItem, Protocol.bare, Item.bare, h]
  | _ => simp [addItem, Protocol.bare, Item.bare]

theorem foldl_addItem_bare (items : List Item) (p : Protocol) :
    (items.foldl addItem p).bare = (items.map Item.bare).foldl addItem p.bare := by
  induction items generalizing p with
  | nil => rfl
  | cons i items ih => rw [List.foldl_cons, ih, addItem_bare, List.map_cons, List.foldl_cons]

theorem foldl_addItem_imports (decls : List ImportDecl) (p : Protocol) :
    (decls.map Item.importDecl).foldl addItem p = { p with imports := p.imports ++ decls } := by
  induction decls generalizing p with
  | nil => simp
  | cons decl decls ih => simp [ih, addItem]

theorem foldl_addItem_enums (decls : List EnumDecl) (p : Protocol) :
    (decls.map Item.enumDecl).foldl addItem p = { p with enums := p.enums ++ decls } := by
  induction decls generalizing p with
  | nil => simp
  | cons decl decls ih => simp [ih, addItem]

theorem foldl_addItem_messages (decls : List MessageDecl) (p : Protocol) :
    (decls.map Item.messageDecl).foldl addItem p = { p with messages := p.messages ++ decls } := by
  induction decls generalizing p with
  | nil => simp
  | cons decl decls ih => simp [ih, addItem]

/-- A protocol is made of its items. -/
theorem foldl_addItem_items (p : Protocol) :
    p.items.foldl addItem (emptyProtocol p.name) = p := by
  obtain ⟨name, version, description, imports, enums, messages, rules⟩ := p
  cases version <;> cases description <;> cases rules <;>
    simp [Protocol.items, foldl_addItem_imports, foldl_addItem_enums, foldl_addItem_messages,
      addItem, emptyProtocol]

end Declaration

end WireSpec
