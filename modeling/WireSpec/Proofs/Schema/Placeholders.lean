import WireSpec.Proofs.Schema.Declared
import WireSpec.Proofs.Schema.Runs
/-!
# Places without an expression

Where an expression should stand and none can be read, `null` is taken in its place: where no level
of nesting is left, where the next token begins no expression, and for text that is no token.  None
of these is passed over in silence.  The first two are reported where they are met; the last has
been reported by the scan.
-/

namespace WireSpec

namespace Parser

variable {α β γ : Type} {close : Position}

/-- In running `p` in front of `tokens`, `q` is run in front of `stop`. -/
inductive Reaches {β : Type} (close : Position) (q : Parser β) (stop : List Token) :
    {α : Type} → Parser α → List Token → Prop
  | here : Reaches close q stop q stop
  | first {α γ : Type} {p : Parser α} {tokens : List Token} (f : α → Parser γ)
      (h : Reaches close q stop p tokens) : Reaches close q stop (p >>= f) tokens
  | second {α γ : Type} {p : Parser α} {f : α → Parser γ} {tokens : List Token}
      (h : Reaches close q stop (f (p.run close tokens).value) (p.run close tokens).rest) :
      Reaches close q stop (p >>= f) tokens
  | turn {α : Type} {goesOn : List Token → Bool} {item : Parser α} {head : Token}
      {tail : List Token} (hgoes : goesOn (head :: tail) = true)
      (h : Reaches close q stop item (head :: tail)) :
      Reaches close q stop (sequence goesOn item) (head :: tail)
  | later {α : Type} {goesOn : List Token → Bool} {item : Parser α} {head : Token}
      {tail : List Token} (hgoes : goesOn (head :: tail) = true)
      (h : Reaches close q stop (sequence goesOn item)
        (remaining (head :: tail) (item.run close (head :: tail)).rest)) :
      Reaches close q stop (sequence goesOn item) (head :: tail)

theorem problems_sequence {goesOn : List Token → Bool} (item : Parser α) {head : Token}
    {tail : List Token} (hgoes : goesOn (head :: tail) = true) :
    ((sequence goesOn item).run close (head :: tail)).problems =
      (item.run close (head :: tail)).problems ++ ((sequence goesOn item).run close
        (remaining (head :: tail) (item.run close (head :: tail)).rest)).problems := by
  change (sequenceRun goesOn item close (head :: tail)).problems = _
  rw [sequenceRun, if_pos hgoes]
  rfl

namespace Reaches

variable {p : Parser α} {q : Parser β} {tokens stop : List Token}

theorem behind {f : α → Parser γ} {a : α} {rest : List Token}
    {problems : List (Position × SyntaxError)} (hrun : p.run close tokens = ⟨a, rest, problems⟩)
    (h : Reaches close q stop (f a) rest) : Reaches close q stop (p >>= f) tokens := by
  refine .second ?_
  rw [hrun]
  exact h

theorem suffix (h : Reaches close q stop p tokens) : stop <:+ tokens := by
  induction h with
  | here => exact List.suffix_refl stop
  | first _ _ ih => exact ih
  | second _ ih => exact ih.trans (Parser.rest_suffix _ _ _)
  | turn _ _ ih => exact ih
  | later _ _ ih => exact ih.trans (remaining_suffix (Parser.rest_suffix _ _ _))

/-- What is reported on the way is among the problems of the whole. -/
theorem problems_infix (h : Reaches close q stop p tokens) :
    (q.run close stop).problems <:+: (p.run close tokens).problems := by
  induction h with
  | here => exact List.infix_refl _
  | first _ _ ih => exact ih.trans (List.prefix_append _ _).isInfix
  | second _ ih => exact ih.trans (List.suffix_append _ _).isInfix
  | turn hgoes _ ih =>
      rw [problems_sequence _ hgoes]
      exact ih.trans (List.prefix_append _ _).isInfix
  | later hgoes _ ih =>
      rw [problems_sequence _ hgoes]
      exact ih.trans (List.suffix_append _ _).isInfix

end Reaches

end Parser

open WireSpec.Parser

namespace Expression

/-- In front of these tokens a reader takes `null` for an expression that does not stand there. -/
inductive FillsIn (close : Position) : Parser Expr → List Token → Prop
  | tooDeep (tokens : List Token) : FillsIn close (unary 0) tokens
  | missing {a : Nat} {tokens : List Token} (hliteral : literal? (front close tokens).kind = none)
      (hparen : (front close tokens).kind ≠ .symbol .parenOpen)
      (hname : (front close tokens).kind.name? = none) : FillsIn close (primary a) tokens
  | invalid {a : Nat} {tokens : List Token} (hinvalid : (front close tokens).kind = .invalid) :
      FillsIn close (primary a) tokens

variable {close : Position} {p : Parser Expr} {tokens : List Token}

theorem FillsIn.value_eq (h : FillsIn close p tokens) :
    (p.run close tokens).value = .literal (front close tokens).position .null := by
  cases h with
  | tooDeep => rw [run_unary_zero]
  | missing hliteral hparen hname => rw [run_primary_none hliteral hparen hname]
  | invalid hinvalid =>
      have hliteral : literal? (front close tokens).kind = some .null := by rw [hinvalid]; rfl
      rw [run_primary_literal hliteral]

theorem FillsIn.reported (h : FillsIn close p tokens) :
    (p.run close tokens).problems ≠ [] ∨ ∃ t ∈ tokens, t.kind = .invalid := by
  cases h with
  | tooDeep =>
      rw [run_unary_zero]
      exact .inl (List.cons_ne_nil _ _)
  | missing hliteral hparen hname =>
      rw [run_primary_none hliteral hparen hname]
      exact .inl (List.cons_ne_nil _ _)
  | invalid hinvalid =>
      cases tokens with
      | nil => cases hinvalid
      | cons head tail => exact .inr ⟨head, .head tail, hinvalid⟩

/-- Reading an expression comes to a primary at once, where no prefix operator stands. -/
theorem reaches_primary (a : Nat) (h : prefixOp? (front close tokens).kind = none) :
    Reaches close (primary a) tokens (whole (a + 1)) tokens := by
  have hoperand : Reaches close (primary a) tokens (operand a) tokens := by
    rw [operand]
    refine .behind rfl ?_
    rw [h]
    exact .first _ .here
  have hbinary (levels : List (List (Symbol × BinaryOp))) :
      Reaches close (primary a) tokens (binary (a + 1) levels) tokens := by
    induction levels with
    | nil =>
        rw [binary, unary]
        exact hoperand
    | cons level tighter ih =>
        rw [binary]
        exact .first _ ih
  rw [whole]
  exact hbinary precedence

end Expression

namespace Protocol

/-- Somewhere in reading the tokens, `null` is taken for an expression that does not stand there. -/
def FillsIn (tokens : List Token) : Prop :=
  let close := (tokens.getLast?.map (·.position)).getD .unknown
  ∃ p stop, Expression.FillsIn close p stop ∧ Reaches close p stop Declaration.protocol tokens

theorem not_fillsIn_of_parse {tokens : List Token} (hvalid : ∀ t ∈ tokens, t.kind ≠ .invalid)
    (hclean : (Protocol.parse tokens).problems = []) : ¬FillsIn tokens := by
  rintro ⟨p, stop, hfills, hreaches⟩
  rcases hfills.reported with hproblems | ⟨t, ht, hinvalid⟩
  · have hwithin : _ <:+: (Protocol.parse tokens).problems := hreaches.problems_infix
    rw [hclean] at hwithin
    exact hproblems (List.infix_nil.mp hwithin)
  · exact hvalid t (hreaches.suffix.subset ht) hinvalid

end Protocol

/-- Some of the tokens, one behind the other, spell an expression by the grammar. -/
def Expr.StandsIn (e : Expr) (tokens : List Token) : Prop :=
  ∃ (t : Grammar.Phrase .whole) (read : List Token), read <:+: tokens ∧
    read.map (·.kind) = t.word ∧ t.value = e.bare

/-- A text without problems is read as a protocol, and all its expressions stand in the text. -/
theorem Protocol.exists_standsIn_of_parse {tokens : List Token}
    (hvalid : ∀ t ∈ tokens, t.kind ≠ .invalid) (hclean : (Protocol.parse tokens).problems = []) :
    ∃ p, (Protocol.parse tokens).value = some p ∧ ∀ e ∈ p.expressions, e.StandsIn tokens := by
  refine exists_of_parse ?_ hclean
  intro close behind hbehind hread
  obtain ⟨t, read, hsource, hspelling, hvalue, -⟩ := Grammar.expression_derives hread
  have hwithin : read <:+: tokens := by
    rw [hsource] at hbehind
    exact (List.prefix_append read _).isInfix.trans hbehind.isInfix
  have hkinds : ∀ token ∈ read, token.kind ≠ .invalid := fun token ht =>
    hvalid token (hwithin.subset ht)
  exact ⟨t, read, hwithin, (Grammar.spelling_eq_map hkinds).symm.trans hspelling, hvalue⟩

end WireSpec
