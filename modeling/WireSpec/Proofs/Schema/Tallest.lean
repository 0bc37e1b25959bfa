import WireSpec.Proofs.Schema.Declared
import WireSpec.Proofs.Schema.Height
/-!
# The tallest expressions

The bound on the height of expressions is attained, and so an expression in a definition without
syntax errors can be much taller than the limit of nesting.
-/

namespace WireSpec.Grammar

/-! ### A phrase as tall as can be -/

namespace Phrase

/-- So many members of members. -/
def members (t : Phrase .accessed) : Nat → Phrase .accessed
  | 0 => t
  | n + 1 => .member (t.members n) (.identifier "m")

/-- So many operations of one level, with a name as right operand of each. -/
def operations {k : Nat} {op : BinaryOp} (level : operatorLevel op = k)
    (t : Phrase (.binary (k + 1))) : Nat → Phrase (.binary (k + 1))
  | 0 => t
  | n + 1 => .operation op level (operations level t n) (alone (.name (.identifier "x")) k)

variable {k : Nat} {op : BinaryOp}

theorem steps_members (t : Phrase .accessed) (n : Nat) : (t.members n).steps = t.steps + n := by
  induction n with
  | zero => rfl
  | succ n ih => rw [members, steps, ih, Nat.add_assoc]

theorem need_members (t : Phrase .accessed) (n : Nat) :
    (t.members n).need ≤ max t.need (t.steps + n) := by
  induction n with
  | zero => exact Nat.le_max_left _ _
  | succ n ih =>
      rw [members, need, steps_members]
      omega

theorem height_members (t : Phrase .accessed) (n : Nat) :
    Expr.height (t.members n).value = Expr.height t.value + n := by
  induction n with
  | zero => rfl
  | succ n ih => rw [members, value, Expr.height, ih, Nat.add_assoc]

theorem need_alone (t : Phrase .primary) (k : Nat) : (t.alone k).need = t.need + 1 := by
  induction k with
  | zero => rfl
  | succ k ih => exact ih

theorem value_alone (t : Phrase .primary) (k : Nat) : (t.alone k).value = t.value := by
  induction k with
  | zero => rfl
  | succ k ih => exact ih

theorem steps_operations (level : operatorLevel op = k) (t : Phrase (.binary (k + 1))) (n : Nat) :
    (operations level t n).steps = t.steps + n := by
  induction n with
  | zero => rfl
  | succ n ih => rw [operations, steps, ih, Nat.add_assoc]

theorem need_operations (level : operatorLevel op = k) (t : Phrase (.binary (k + 1))) (n : Nat) :
    (operations level t n).need ≤ max t.need (t.steps + n + 1) := by
  induction n with
  | zero => exact Nat.le_max_left _ _
  | succ n ih =>
      rw [operations, need, steps_operations, need_alone, need]
      omega

theorem height_operations (level : operatorLevel op = k) (t : Phrase (.binary (k + 1))) (n : Nat)
    (ht : 0 < Expr.height t.value) :
    Expr.height (operations level t n).value = Expr.height t.value + n := by
  induction n with
  | zero => rfl
  | succ n ih =>
      have hname : Expr.height (alone (.name (.identifier "x")) k).value = 1 := by
        rw [value_alone]
        rfl
      rw [operations, value, Expr.height, ih, hname]
      omega

end Phrase

/-- One operator of each level. -/
def operatorOf : Nat → BinaryOp
  | 0 => .mul
  | 1 => .add
  | 2 => .shiftLeft
  | 3 => .less
  | 4 => .equal
  | 5 => .bitAnd
  | 6 => .bitXor
  | 7 => .bitOr
  | 8 => .and
  | _ => .or

theorem operatorLevel_operatorOf : ∀ k < 10, operatorLevel (operatorOf k) = k := by decide

namespace Phrase

/-- So many operations of each of the first levels. -/
def tower (t : Phrase (.binary 0)) (n : Nat) : (k : Nat) → k ≤ 10 → Phrase (.binary k)
  | 0, _ => t
  | k + 1, hk =>
      operations (operatorLevel_operatorOf k hk)
        (.tighter (t.tower n k (Nat.le_of_succ_le hk))) n

theorem need_tower (t : Phrase (.binary 0)) (n k : Nat) (hk : k ≤ 10) :
    (t.tower n k hk).need ≤ max t.need (n + 1) := by
  induction k with
  | zero => exact Nat.le_max_left _ _
  | succ k ih =>
      have hbelow := ih (Nat.le_of_succ_le hk)
      have hneed := need_operations (operatorLevel_operatorOf k hk)
        (.tighter (t.tower n k (Nat.le_of_succ_le hk))) n
      rw [tower]
      simp only [need, steps] at hneed
      omega

theorem height_tower (t : Phrase (.binary 0)) (n k : Nat) (hk : k ≤ 10)
    (ht : 0 < Expr.height t.value) :
    Expr.height (t.tower n k hk).value = Expr.height t.value + k * n := by
  induction k with
  | zero => simp [tower]
  | succ k ih =>
      have hbelow := ih (Nat.le_of_succ_le hk)
      rw [tower, height_operations]
      · simp only [value, hbelow, Nat.succ_mul, Nat.add_assoc]
      · simp only [value, hbelow]
        omega

/-- The tallest of the expressions that need one level more than `a`: a call of the tallest of those
before with as many accesses and as many operations of each level as they allow. -/
def tallest : Nat → Phrase .whole
  | 0 => alone (.name (.identifier "x")) 10
  | a + 1 =>
      tower (.operand (.unsigned
        (members (.object (.callWith (.identifier "f") (.last (tallest a)))) (a + 1))))
        (a + 1) 10 (Nat.le_refl 10)

theorem need_tallest (a : Nat) : (tallest a).need ≤ a + 1 := by
  induction a with
  | zero => decide
  | succ a ih =>
      rw [tallest]
      refine Nat.le_trans (need_tower _ _ _ _) ?_
      have hmembers := need_members (.object (.callWith (.identifier "f") (.last (tallest a))))
        (a + 1)
      simp only [need, steps] at hmembers ⊢
      omega

theorem height_tallest (a : Nat) : Expr.height (tallest a).value = heightBound (a + 1) := by
  induction a with
  | zero => decide
  | succ a ih =>
      have hbase : Expr.height
          (members (.object (.callWith (.identifier "f") (.last (tallest a)))) (a + 1)).value =
            heightBound (a + 1) + 1 + (a + 1) := by
        rw [height_members]
        simp only [value, Expr.height, Expr.heightAll, ih, Nat.max_zero]
      rw [tallest, height_tower]
      · simp only [value, hbase, heightBound]
        omega
      · simp only [value, hbase]
        omega

end Phrase

/-! ### Definitions of one expression -/

open Expression WireSpec.Parser Declaration

section Definition

variable {close : Position} {w rest : List Token} {e : Expr}

def brace : Token := ⟨.symbol .braceClose, "", .unknown⟩

/-- `A = ... }` -/
def memberTokens (w rest : List Token) : List Token :=
  tokensOf [.identifier "A", .symbol .assign] ++ (w ++ brace :: rest)

/-- `enum E { A = ... }` -/
def enumTokens (w rest : List Token) : List Token :=
  tokensOf [.keyword .enum, .identifier "E", .symbol .braceOpen] ++ memberTokens w rest

/-- `protocol P { enum E { A = ... } }` -/
def definition (w : List Token) : List Token :=
  tokensOf [.keyword .protocol, .identifier "P", .symbol .braceOpen] ++ enumTokens w [brace]

theorem run_enumMember
    (h : expression.run close (w ++ brace :: rest) = ⟨e, brace :: rest, []⟩) :
    enumMember.run close (memberTokens w rest) = ⟨some ("A", e), brace :: rest, []⟩ := by
  have hbrace : brace.kind = .symbol .braceClose := rfl
  simp [enumMember, memberTokens, tokensOf, run_name?, front, TokenKind.name?, run_expect,
    Mark.symbol, h, run_eat, run_atKind, hbrace]

theorem run_enumDecl
    (h : expression.run close (w ++ brace :: rest) = ⟨e, brace :: rest, []⟩) :
    enumDecl.run close (enumTokens w rest) =
      ⟨some ⟨"E", [("A", e)], .unknown⟩, rest, []⟩ := by
  have hbrace : brace.kind = .symbol .braceClose := rfl
  have hmembers : (Parser.sequence inBody enumMember).run close (memberTokens w rest) =
      ⟨[some ("A", e)], brace :: rest, []⟩ :=
    run_sequence_one rfl (run_enumMember h) (by simp; omega) rfl
  simp [enumDecl, body, enumTokens, tokensOf, advance, nameOr, run_name?, front, TokenKind.name?,
    run_expect, Mark.symbol, hmembers, hbrace]

theorem run_protocol
    (h : expression.run close (w ++ brace :: [brace]) = ⟨e, brace :: [brace], []⟩) :
    protocol.run close (definition w) =
      ⟨some { emptyProtocol "P" with enums := [⟨"E", [("A", e)], .unknown⟩] }, [], []⟩ := by
  have hbrace : brace.kind = .symbol .braceClose := rfl
  have hitem : item.run close (enumTokens w [brace]) =
      ⟨some (.enumDecl ⟨"E", [("A", e)], .unknown⟩), [brace], []⟩ := by
    have hfront : (front close (enumTokens w [brace])).kind = .keyword .enum := rfl
    simp [item, peek, hfront, run_enumDecl h]
  have hitems : (Parser.sequence inProtocol item).run close (enumTokens w [brace]) =
      ⟨[some (.enumDecl ⟨"E", [("A", e)], .unknown⟩)], [brace], []⟩ :=
    run_sequence_one rfl hitem (by simp) rfl
  simp [protocol, definition, skip, Skip.past, Skip.invalid, tokensOf, front, run_atKind,
    eatKeyword, run_eatKind, nameOr, run_name?, TokenKind.name?, run_expect, Mark.symbol, hitems,
    addItem, emptyProtocol, hbrace]

/-- A phrase that is not nested too deeply is the only expression of a definition without syntax
errors. -/
theorem parse_definition (t : Phrase .whole) (h : t.need ≤ nestingLimit) :
    (Protocol.parse (definition (tokensOf t.word))).problems = [] ∧
      ∃ p e, (Protocol.parse (definition (tokensOf t.word))).value = some p ∧
        p.expressions = [e] ∧ e.bare = t.value := by
  have hclosed : Closed (brace :: [brace]) := closed_cons (by simp [brace, closers]) [brace]
  obtain ⟨e, hrun, hvalue⟩ := (reads_expression
    (((definition (tokensOf t.word)).getLast?.map (·.position)).getD .unknown) t
    (map_kind_tokensOf t.word) hclosed).exists_eq hclosed h
  have hparse : Protocol.parse (definition (tokensOf t.word)) =
      ⟨some { emptyProtocol "P" with enums := [⟨"E", [("A", e)], .unknown⟩] }, [], []⟩ :=
    run_protocol hrun
  rw [hparse]
  exact ⟨rfl, _, e, rfl, rfl, hvalue⟩

end Definition

/-- An expression occurs in a definition without syntax errors. -/
def Occurs (e : Expr) : Prop :=
  ∃ tokens p, (Protocol.parse tokens).problems = [] ∧
    (Protocol.parse tokens).value = some p ∧ e ∈ p.expressions

theorem occurs_iff_derived (e : Expr) : (∃ e', Occurs e' ∧ e'.bare = e.bare) ↔ e.Derived := by
  constructor
  · rintro ⟨e', ⟨tokens, p, hclean, hp, he'⟩, hbare⟩
    obtain ⟨t, hvalue, hneed⟩ := Protocol.derived_of_parse hclean hp e' he'
    exact ⟨t, hvalue.trans hbare, hneed⟩
  · rintro ⟨t, hvalue, hneed⟩
    obtain ⟨hclean, p, e', hp, hexpressions, hvalue'⟩ := parse_definition t hneed
    exact ⟨e', ⟨_, p, hclean, hp, by simp [hexpressions]⟩, hvalue'.trans hvalue⟩

theorem heightBound_limit : heightBound nestingLimit = 54550 := by decide +kernel

theorem height_le_of_derived {e : Expr} (h : e.Derived) : e.height ≤ 54550 := by
  obtain ⟨t, hvalue, hneed⟩ := h
  have hheight := height_le_heightBound hneed
  rw [hvalue, Expr.height_bare, heightBound_limit] at hheight
  exact hheight

theorem exists_occurs_height : ∃ e, Occurs e ∧ e.height = 54550 := by
  have hheight : Expr.height (Phrase.tallest 99).value = 54550 :=
    (Phrase.height_tallest 99).trans heightBound_limit
  obtain ⟨hclean, p, e, hp, hexpressions, hvalue⟩ :=
    parse_definition _ (Phrase.need_tallest 99)
  refine ⟨e, ⟨_, p, hclean, hp, by simp [hexpressions]⟩, ?_⟩
  rw [← Expr.height_bare, hvalue, hheight]

/-- An expression occurs, up to positions, in a definition without syntax errors exactly if the
grammar derives it within the limit of nesting; so none that occurs is taller than the limit exactly
if that can be said of what is derived.  But a number bounds the heights of all that occur exactly
if it is at least 54550. -/
theorem height_of_occurring_expressions (e : Expr) (bound : Nat) :
    ((∃ e', Occurs e' ∧ e'.bare = e.bare) ↔ e.Derived) ∧
    ((∀ e', Occurs e' → e'.bare = e.bare → e'.height ≤ nestingLimit) ↔
      (e.Derived → e.height ≤ nestingLimit)) ∧
    ((∀ e', Occurs e' → e'.height ≤ bound) ↔ 54550 ≤ bound) := by
  have hsame {e' : Expr} (h : e'.bare = e.bare) : e'.height = e.height := by
    rw [← Expr.height_bare, h, Expr.height_bare]
  refine ⟨occurs_iff_derived e, ⟨?_, ?_⟩, ⟨?_, ?_⟩⟩
  · intro h hderived
    obtain ⟨e', hoccurs, hbare⟩ := (occurs_iff_derived e).mpr hderived
    rw [← hsame hbare]
    exact h e' hoccurs hbare
  · intro h e' hoccurs hbare
    rw [hsame hbare]
    exact h ((occurs_iff_derived e).mp ⟨e', hoccurs, hbare⟩)
  · intro h
    obtain ⟨e', hoccurs, hheight⟩ := exists_occurs_height
    rw [← hheight]
    exact h e' hoccurs
  · intro h e' hoccurs
    exact Nat.le_trans (height_le_of_derived ((occurs_iff_derived e').mp ⟨e', hoccurs, rfl⟩)) h

/-- `-- ... - 1 + 1` with 99 minus signs. -/
def signsPhrase : Phrase .whole :=
  (Phrase.operation .add rfl (.tighter (.tighter (.operand ((List.range 99).foldr
    (fun _ t => .signed .negate t) (.unsigned (.object (.literal (.integer 1))))))))
      (Phrase.alone (.literal (.integer 1)) 1)).loosen 8

theorem exists_occurs_height_gt_limit : ∃ e, Occurs e ∧ nestingLimit < e.height := by
  obtain ⟨hclean, p, e, hp, hexpressions, hvalue⟩ := parse_definition signsPhrase (by decide)
  refine ⟨e, ⟨_, p, hclean, hp, by simp [hexpressions]⟩, ?_⟩
  rw [← Expr.height_bare, hvalue]
  decide

end WireSpec.Grammar
