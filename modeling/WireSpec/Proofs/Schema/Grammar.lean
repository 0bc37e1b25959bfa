import WireSpec.Schema.Expression
/-!
# The grammar of expressions

A phrase is a derivation: it has the tokens that it derives, its word, and the expression that
they stand for.  Nothing here refers to how expressions are read; that the tables of the reader
agree with those of the grammar is shown at the end.
-/

namespace WireSpec

mutual

/-- An expression without its positions. -/
def Expr.bare : Expr → Expr
  | .literal _ v => .literal .unknown v
  | .name _ n => .name .unknown n
  | .unary _ op e => .unary .unknown op e.bare
  | .binary op l r => .binary op l.bare r.bare
  | .member o n => .member o.bare n
  | .index o i => .index o.bare i.bare
  | .slice o i j => .slice o.bare i.bare j.bare
  | .call _ f args => .call .unknown f (Expr.bareAll args)

def Expr.bareAll : List Expr → List Expr
  | [] => []
  | e :: rest => e.bare :: Expr.bareAll rest

end

namespace Grammar

/-! ### Words of one token -/

inductive Name where
  | identifier (name : String)
  | modifier (word : ModifierWord)

def Name.kind : Name → TokenKind
  | identifier name => .identifier name
  | modifier word => .keyword (.modifier word)

def Name.text : Name → String
  | identifier name => name
  | modifier word => word.word

def literalKind : Literal → TokenKind
  | .integer n => .integer n
  | .float x => .float x
  | .string s => .string s
  | .char c => .char c
  | .bool true => .keyword .trueValue
  | .bool false => .keyword .falseValue
  | .null => .keyword .nullValue

def prefixSymbol : UnaryOp → Symbol
  | .negate => .minus
  | .not => .bang
  | .complement => .tilde

def operatorSymbol : BinaryOp → Symbol
  | .or => .pipePipe
  | .and => .ampAmp
  | .bitOr => .pipe
  | .bitXor => .caret
  | .bitAnd => .amp
  | .equal => .equal
  | .notEqual => .notEqual
  | .less => .less
  | .lessEqual => .lessEqual
  | .greater => .greater
  | .greaterEqual => .greaterEqual
  | .shiftLeft => .shiftLeft
  | .shiftRight => .shiftRight
  | .add => .plus
  | .sub => .minus
  | .mul => .star
  | .div => .slash
  | .rem => .percent

/-- How many levels of operators bind tighter. -/
def operatorLevel : BinaryOp → Nat
  | .or => 9
  | .and => 8
  | .bitOr => 7
  | .bitXor => 6
  | .bitAnd => 5
  | .equal | .notEqual => 4
  | .less | .lessEqual | .greater | .greaterEqual => 3
  | .shiftLeft | .shiftRight => 2
  | .add | .sub => 1
  | .mul | .div | .rem => 0

/-! ### Phrases -/

/-- The sorts of phrases.  Those of `binary k` have operators of the `k` tightest levels outside of
brackets. -/
inductive Form where
  | binary (levels : Nat)
  | unary
  | accessed
  | primary
  | arguments

namespace Form

abbrev whole : Form := binary 10

@[reducible] def Value : Form → Type
  | arguments => List Expr
  | _ => Expr

end Form

/-- The derivations. -/
inductive Phrase : Form → Type where
  | operand (t : Phrase .unary) : Phrase (.binary 0)
  | tighter {k : Nat} (t : Phrase (.binary k)) : Phrase (.binary (k + 1))
  | operation {k : Nat} (op : BinaryOp) (level : operatorLevel op = k)
      (l : Phrase (.binary (k + 1))) (r : Phrase (.binary k)) : Phrase (.binary (k + 1))
  | signed (op : UnaryOp) (t : Phrase .unary) : Phrase .unary
  | unsigned (t : Phrase .accessed) : Phrase .unary
  | object (t : Phrase .primary) : Phrase .accessed
  | member (t : Phrase .accessed) (name : Name) : Phrase .accessed
  | index (t : Phrase .accessed) (i : Phrase .whole) : Phrase .accessed
  | slice (t : Phrase .accessed) (i j : Phrase .whole) : Phrase .accessed
  | literal (value : Literal) : Phrase .primary
  | name (name : Name) : Phrase .primary
  | call (name : Name) : Phrase .primary
  | callWith (name : Name) (args : Phrase .arguments) : Phrase .primary
  | group (t : Phrase .whole) : Phrase .primary
  | last (t : Phrase .whole) : Phrase .arguments
  | more (t : Phrase .whole) (args : Phrase .arguments) : Phrase .arguments

namespace Phrase

open Expression (prefixOp?)

def word {f : Form} : Phrase f → List TokenKind
  | operand t | tighter t | unsigned t | object t | last t => t.word
  | operation op _ l r => l.word ++ .symbol (operatorSymbol op) :: r.word
  | signed op t => .symbol (prefixSymbol op) :: t.word
  | member t n => t.word ++ [.symbol .dot, n.kind]
  | index t i => t.word ++ .symbol .bracketOpen :: i.word ++ [.symbol .bracketClose]
  | slice t i j =>
      t.word ++ .symbol .bracketOpen :: i.word ++ .symbol .dotDot :: j.word ++
        [.symbol .bracketClose]
  | literal value => [literalKind value]
  | name n => [n.kind]
  | call n => [n.kind, .symbol .parenOpen, .symbol .parenClose]
  | callWith n args => n.kind :: .symbol .parenOpen :: args.word ++ [.symbol .parenClose]
  | group t => .symbol .parenOpen :: t.word ++ [.symbol .parenClose]
  | more t args => t.word ++ .symbol .comma :: args.word

def value {f : Form} : Phrase f → f.Value
  | operand t | tighter t | unsigned t | object t | group t => t.value
  | operation op _ l r => Expr.binary op l.value r.value
  | signed op t => Expr.unary .unknown op t.value
  | member t n => Expr.member t.value n.text
  | index t i => Expr.index t.value i.value
  | slice t i j => Expr.slice t.value i.value j.value
  | literal value => Expr.literal .unknown value
  | name n => Expr.name .unknown n.text
  | call n => Expr.call .unknown n.text []
  | callWith n args => Expr.call .unknown n.text args.value
  | last t => [t.value]
  | more t args => t.value :: args.value

/-- The length of the chain of operators of the loosest level, or of accesses. -/
def steps {f : Form} : Phrase f → Nat
  | operation _ _ l _ => l.steps + 1
  | member t _ | index t _ | slice t _ _ => t.steps + 1
  | _ => 0

/-- The least allowance that suffices to read a phrase.  A chain has used up one level for every
step before the next one is read. -/
def need {f : Form} : Phrase f → Nat
  | operand t | tighter t | object t | group t | last t => t.need
  | operation _ _ l r => max l.need (l.steps + (1 + r.need))
  | signed _ t => t.need + 1
  | unsigned t => t.need + 1
  | member t _ => max t.need (t.steps + 1)
  | index t i => max t.need (t.steps + (1 + i.need))
  | slice t i j => max t.need (t.steps + (1 + max i.need j.need))
  | literal _ | name _ | call _ => 0
  | callWith _ args => args.need
  | more t args => max t.need args.need

/-- The same phrase without any operators of `n` more levels. -/
def loosen {k : Nat} (t : Phrase (.binary k)) : (n : Nat) → Phrase (.binary (k + n))
  | 0 => t
  | n + 1 => .tighter (t.loosen n)

/-- A primary as a phrase of the first levels. -/
def alone (t : Phrase .primary) : (k : Nat) → Phrase (.binary k)
  | 0 => .operand (.unsigned (.object t))
  | k + 1 => .tighter (t.alone k)

theorem exists_word_eq_cons {f : Form} (t : Phrase f) :
    ∃ kind rest, t.word = kind :: rest ∧ kind ≠ .symbol .parenClose ∧
      (f = .accessed ∨ f = .primary → prefixOp? kind = none) := by
  induction t with
  | operand t ih | tighter t ih | last t ih =>
      obtain ⟨kind, rest, hword, hclose, _⟩ := ih
      exact ⟨kind, rest, hword, hclose, by simp⟩
  | operation op level l r ihl ihr =>
      obtain ⟨kind, rest, hword, hclose, _⟩ := ihl
      exact ⟨kind, _, by rw [word, hword]; rfl, hclose, by simp⟩
  | signed op t => exact ⟨_, _, rfl, by cases op <;> simp [prefixSymbol], by simp⟩
  | unsigned t ih =>
      obtain ⟨kind, rest, hword, hclose, _⟩ := ih
      exact ⟨kind, rest, hword, hclose, by simp⟩
  | object t ih =>
      obtain ⟨kind, rest, hword, hclose, hprefix⟩ := ih
      exact ⟨kind, rest, hword, hclose, fun _ => hprefix (Or.inr rfl)⟩
  | member t n ih | index t i ih | slice t i j ih =>
      obtain ⟨kind, rest, hword, hclose, hprefix⟩ := ih
      exact ⟨kind, _, by rw [word, hword]; rfl, hclose, fun _ => hprefix (Or.inl rfl)⟩
  | literal value =>
      refine ⟨_, _, rfl, ?_, fun _ => ?_⟩
      all_goals cases value with
        | bool b => cases b <;> simp [literalKind, prefixOp?]
        | integer | float | string | char | null => simp [literalKind, prefixOp?]
  | name n | call n | callWith n args =>
      refine ⟨_, _, rfl, ?_, fun _ => ?_⟩
      all_goals cases n <;> simp [Name.kind, prefixOp?]
  | group t => exact ⟨_, _, rfl, by simp, fun _ => rfl⟩
  | more t args iht =>
      obtain ⟨kind, rest, hword, hclose, _⟩ := iht
      exact ⟨kind, _, by rw [word, hword]; rfl, hclose, by simp⟩

theorem need_pos (t : Phrase .unary) : 0 < t.need := by
  cases t with
  | signed => exact Nat.succ_pos _
  | unsigned => exact Nat.succ_pos _

end Phrase

/-! ### The tables of the reader -/

open Expression

def row (k : Nat) : List (Symbol × BinaryOp) := (precedence[9 - k]?).getD []

/-- The tightest levels, so many of them. -/
def levels (k : Nat) : List (List (Symbol × BinaryOp)) := precedence.drop (10 - k)

theorem levels_ten : levels 10 = precedence := rfl

theorem levels_succ : ∀ k < 10, levels (k + 1) = row k :: levels k := by decide

theorem symbol_of_mem_row : ∀ k < 10, ∀ entry ∈ row k,
    entry.1 = operatorSymbol entry.2 ∧ operatorLevel entry.2 = k := by decide

theorem lookup_row (op : BinaryOp) :
    (row (operatorLevel op)).lookup (operatorSymbol op) = some op := by
  cases op <;> rfl

theorem operatorIn?_eq_some {k : Nat} (hk : k < 10) {kind : TokenKind} {op : BinaryOp} :
    operatorIn? (row k) kind = some op ↔
      kind = .symbol (operatorSymbol op) ∧ operatorLevel op = k := by
  constructor
  · intro h
    unfold operatorIn? at h
    split at h
    · rename_i s
      obtain ⟨before, behind, hrow, _⟩ := List.lookup_eq_some_iff.mp h
      have hmem : (s, op) ∈ row k := by simp [hrow]
      obtain ⟨hsymbol, hlevel⟩ := symbol_of_mem_row k hk (s, op) hmem
      exact ⟨congrArg TokenKind.symbol hsymbol, hlevel⟩
    · cases h
  · rintro ⟨rfl, rfl⟩
    exact lookup_row op

theorem prefixOp?_eq_some {kind : TokenKind} {op : UnaryOp} :
    prefixOp? kind = some op ↔ kind = .symbol (prefixSymbol op) := by
  constructor
  · intro h
    unfold prefixOp? at h
    split at h <;> cases h <;> rfl
  · rintro rfl
    cases op <;> rfl

/-- Text that is no token is read as `null`. -/
def repaired : TokenKind → TokenKind
  | .invalid => .keyword .nullValue
  | kind => kind

theorem literal?_repaired (kind : TokenKind) : literal? (repaired kind) = literal? kind := by
  cases kind <;> rfl

theorem literal?_literalKind (value : Literal) : literal? (literalKind value) = some value := by
  cases value with
  | bool b => cases b <;> rfl
  | integer | float | string | char | null => rfl

theorem literal?_eq_some {kind : TokenKind} {value : Literal} :
    literal? kind = some value ↔ repaired kind = literalKind value := by
  constructor
  · intro h
    cases kind with
    | integer | float | string | char | invalid =>
        obtain rfl := Option.some.inj h
        rfl
    | keyword word =>
        cases word with
        | trueValue | falseValue | nullValue =>
            obtain rfl := Option.some.inj h
            rfl
        | _ => cases h
    | identifier | symbol | endOfInput => cases h
  · intro h
    rw [← literal?_repaired, h, literal?_literalKind]

theorem name?_eq_some {kind : TokenKind} {text : String} :
    kind.name? = some text ↔ ∃ n : Name, n.kind = kind ∧ n.text = text := by
  constructor
  · intro h
    unfold TokenKind.name? at h
    split at h
    · exact ⟨.identifier _, rfl, Option.some.inj h⟩
    · unfold Keyword.modifierName? at h
      split at h
      · exact ⟨.modifier _, rfl, Option.some.inj h⟩
      · cases h
    · cases h
  · rintro ⟨n, rfl, rfl⟩
    cases n <;> rfl

end Grammar

end WireSpec
