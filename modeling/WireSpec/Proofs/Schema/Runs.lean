import WireSpec.Schema.Expression
/-!
# What the readers of expressions do

One equation for every way in which a reader can go on, as an outcome of what it reads first with
the problems of what it reads then behind it.
-/

namespace WireSpec

/-- An outcome with problems that were met before. -/
def Outcome.behind {α : Type} (problems : List (Position × SyntaxError)) (o : Outcome α) :
    Outcome α :=
  ⟨o.value, o.rest, problems ++ o.problems⟩

namespace Parser

variable {close : Position} {tokens : List Token} {α β : Type}

theorem run_bind_eq {p : Parser α} {f : α → Parser β} {a : α} {rest : List Token}
    {problems : List (Position × SyntaxError)} (h : p.run close tokens = ⟨a, rest, problems⟩) :
    (p >>= f).run close tokens = ((f a).run close rest).behind problems := by
  rw [run_bind, h]
  rfl

theorem run_advance (head : Token) : advance.run close (head :: tokens) = ⟨head, tokens, []⟩ := rfl

theorem run_atKind (kind : TokenKind) : (atKind kind).run close tokens =
    ⟨(front close tokens).kind == kind, tokens, []⟩ := rfl

theorem run_eatKind (kind : TokenKind) : (eatKind kind).run close tokens =
    if (front close tokens).kind = kind then ⟨true, tokens.tail, []⟩
    else ⟨false, tokens, []⟩ := by
  by_cases h : (front close tokens).kind = kind <;> simp [eatKind, run_atKind, advance, h]

theorem run_eat (symbol : Symbol) : (eat symbol).run close tokens =
    if (front close tokens).kind = .symbol symbol then ⟨true, tokens.tail, []⟩
    else ⟨false, tokens, []⟩ :=
  run_eatKind (.symbol symbol)

theorem run_expect (mark : Mark) : (expect mark).run close tokens =
    if (front close tokens).kind = .symbol mark.symbol then ⟨true, tokens.tail, []⟩
    else ⟨false, tokens, [((front close tokens).position,
      .unexpected (.mark mark) (front close tokens).kind)]⟩ := by
  by_cases h : (front close tokens).kind = .symbol mark.symbol <;>
    simp [expect, run_eat, h, reportHere, peek, report]

theorem run_reportHere (wanted : Expectation) : (reportHere wanted).run close tokens =
    ⟨(), tokens, [((front close tokens).position,
      .unexpected wanted (front close tokens).kind)]⟩ := rfl

theorem run_name? : name?.run close tokens =
    match (front close tokens).kind.name? with
    | some name => ⟨some name, tokens.tail, []⟩
    | none => ⟨none, tokens, []⟩ := by
  cases h : (front close tokens).kind.name? <;> simp [name?, peek, advance, h]

section Sequence

variable {goesOn : List Token → Bool} {item : Parser α}

theorem run_sequence_stop (h : goesOn tokens = false) :
    (sequence goesOn item).run close tokens = ⟨[], tokens, []⟩ := by
  change sequenceRun goesOn item close tokens = _
  cases tokens with
  | nil => rw [sequenceRun]
  | cons head tail =>
      rw [sequenceRun, h]
      rfl

/-- An item that takes a token is not made to. -/
theorem run_sequence_cons (h : goesOn tokens = true)
    (hshorter : (item.run close tokens).rest.length < tokens.length) :
    (sequence goesOn item).run close tokens =
      let first := item.run close tokens
      let later := (sequence goesOn item).run close first.rest
      ⟨first.value :: later.value, later.rest, first.problems ++ later.problems⟩ := by
  cases tokens with
  | nil => exact absurd hshorter (Nat.not_lt_zero _)
  | cons head tail =>
      change sequenceRun goesOn item close (head :: tail) = _
      simp only [sequenceRun, if_pos h, remaining, if_pos hshorter]
      rfl

theorem run_sequence_one {a : α} {head : Token} {rest : List Token}
    (hgoes : goesOn (head :: tokens) = true)
    (hitem : item.run close (head :: tokens) = ⟨a, rest, []⟩)
    (hshorter : rest.length < (head :: tokens).length) (hstop : goesOn rest = false) :
    (sequence goesOn item).run close (head :: tokens) = ⟨[a], rest, []⟩ := by
  have hitem_shorter : (item.run close (head :: tokens)).rest.length < (head :: tokens).length := by
    rwa [hitem]
  simp only [run_sequence_cons hgoes hitem_shorter, hitem, run_sequence_stop hstop,
    List.append_nil]

end Sequence

end Parser

namespace Expression

open WireSpec.Parser

variable {close : Position} {tokens : List Token} {a : Nat}

theorem run_tooDeep : tooDeep.run close tokens =
    ⟨(), Skip.past Skip.subexpression 0 tokens,
      [((front close tokens).position, .nestedTooDeeply)]⟩ := rfl

theorem run_binary_nil : (binary a []).run close tokens = (unary a).run close tokens := by
  rw [binary]

theorem run_binary_cons (level : List (Symbol × BinaryOp))
    (tighter : List (List (Symbol × BinaryOp))) :
    (binary a (level :: tighter)).run close tokens =
      ((chain a level tighter ((binary a tighter).run close tokens).value).run close
        ((binary a tighter).run close tokens).rest).behind
          ((binary a tighter).run close tokens).problems := by
  rw [binary]
  rfl

section Chain

variable {level : List (Symbol × BinaryOp)} {tighter : List (List (Symbol × BinaryOp))}
  {left : Expr} {op : BinaryOp}

theorem run_chain_stop (h : operatorIn? level (front close tokens).kind = none) :
    (chain a level tighter left).run close tokens = ⟨left, tokens, []⟩ := by
  rw [chain]
  simp [peek, h]

theorem run_chain_zero (h : operatorIn? level (front close tokens).kind = some op) :
    (chain 0 level tighter left).run close tokens =
      ⟨left, Skip.past Skip.subexpression 0 tokens,
        [((front close tokens).position, .nestedTooDeeply)]⟩ := by
  rw [chain]
  simp [peek, h, run_tooDeep]

theorem run_chain_succ (h : operatorIn? level (front close tokens).kind = some op) :
    (chain (a + 1) level tighter left).run close tokens =
      ((chain a level tighter
          (.binary op left ((binary a tighter).run close tokens.tail).value)).run close
        ((binary a tighter).run close tokens.tail).rest).behind
          ((binary a tighter).run close tokens.tail).problems := by
  rw [chain]
  simp [peek, h, advance, Outcome.behind]

end Chain

theorem run_unary_zero : (unary 0).run close tokens =
    ⟨.literal (front close tokens).position .null, Skip.past Skip.subexpression 0 tokens,
      [((front close tokens).position, .nestedTooDeeply)]⟩ := by
  rw [unary]
  rfl

theorem run_unary_succ : (unary (a + 1)).run close tokens = (operand a).run close tokens := by
  rw [unary]

theorem run_operand_signed {op : UnaryOp} (h : prefixOp? (front close tokens).kind = some op) :
    (operand a).run close tokens =
      ⟨.unary (front close tokens).position op ((unary a).run close tokens.tail).value,
        ((unary a).run close tokens.tail).rest, ((unary a).run close tokens.tail).problems⟩ := by
  rw [operand]
  simp [peek, h, advance]

theorem run_operand_unsigned (h : prefixOp? (front close tokens).kind = none) :
    (operand a).run close tokens =
      ((access a ((primary a).run close tokens).value).run close
        ((primary a).run close tokens).rest).behind ((primary a).run close tokens).problems := by
  rw [operand]
  simp [peek, h, Outcome.behind]

section Access

variable {object : Expr}

theorem run_access_stop (hdot : (front close tokens).kind ≠ .symbol .dot)
    (hbracket : (front close tokens).kind ≠ .symbol .bracketOpen) :
    (access a object).run close tokens = ⟨object, tokens, []⟩ := by
  rw [access.eq_def]
  simp [peek]

theorem run_access_zero (h : (front close tokens).kind = .symbol .dot ∨
      (front close tokens).kind = .symbol .bracketOpen) :
    (access 0 object).run close tokens =
      ⟨object, Skip.past Skip.subexpression 0 tokens,
        [((front close tokens).position, .nestedTooDeeply)]⟩ := by
  rw [access]
  rcases h with h | h <;> simp [peek, h, run_tooDeep]

theorem run_access_dot (h : (front close tokens).kind = .symbol .dot) :
    (access (a + 1) object).run close tokens =
      match (front close tokens.tail).kind.name? with
      | some name => (access a (.member object name)).run close tokens.tail.tail
      | none => ⟨object, tokens.tail, [((front close tokens.tail).position,
          .unexpected .accessedMember (front close tokens.tail).kind)]⟩ := by
  rw [access]
  simp only [peek, run_bind, h, advance, run_name?]
  cases (front close tokens.tail).kind.name? <;> simp [reportHere, peek, report]

theorem run_access_slice (h : (front close tokens).kind = .symbol .bracketOpen)
    (hdots : (front close ((whole a).run close tokens.tail).rest).kind = .symbol .dotDot) :
    (access (a + 1) object).run close tokens =
      let start := (whole a).run close tokens.tail
      let stop := (whole a).run close start.rest.tail
      let bracket := (expect .closeIndex).run close stop.rest
      ((access a (.slice object start.value stop.value)).run close bracket.rest).behind
        (start.problems ++ stop.problems ++ bracket.problems) := by
  rw [access]
  simp [peek, h, advance, run_eat, hdots, Outcome.behind]

theorem run_access_index (h : (front close tokens).kind = .symbol .bracketOpen)
    (hdots : (front close ((whole a).run close tokens.tail).rest).kind ≠ .symbol .dotDot) :
    (access (a + 1) object).run close tokens =
      let start := (whole a).run close tokens.tail
      let bracket := (expect .closeIndex).run close start.rest
      ((access a (.index object start.value)).run close bracket.rest).behind
        (start.problems ++ bracket.problems) := by
  rw [access]
  simp [peek, h, advance, run_eat, hdots, Outcome.behind]

end Access

section Primary

theorem run_primary_literal {value : Literal}
    (h : literal? (front close tokens).kind = some value) :
    (primary a).run close tokens =
      ⟨.literal (front close tokens).position value, tokens.tail, []⟩ := by
  rw [primary]
  simp [peek, h, advance]

theorem literal?_symbol (symbol : Symbol) : literal? (.symbol symbol) = none := rfl

theorem run_primary_group (h : (front close tokens).kind = .symbol .parenOpen) :
    (primary a).run close tokens =
      let inner := (whole a).run close tokens.tail
      let paren := (expect .closeGroup).run close inner.rest
      ⟨inner.value, paren.rest, inner.problems ++ paren.problems⟩ := by
  rw [primary]
  simp [peek, h, literal?_symbol, run_eat]

theorem literal?_eq_none_of_name {kind : TokenKind} {name : String}
    (h : kind.name? = some name) : literal? kind = none := by
  unfold TokenKind.name? at h
  split at h
  · rfl
  · rename_i word
    cases word <;> first | rfl | cases h
  · cases h

theorem ne_symbol_of_name {kind : TokenKind} {name : String} (h : kind.name? = some name)
    (symbol : Symbol) : kind ≠ .symbol symbol := by
  rintro rfl
  cases h

theorem run_primary_name {name : String} (h : (front close tokens).kind.name? = some name)
    (hparen : (front close tokens.tail).kind ≠ .symbol .parenOpen) :
    (primary a).run close tokens =
      ⟨.name (front close tokens).position name, tokens.tail, []⟩ := by
  rw [primary]
  simp [peek, literal?_eq_none_of_name h, run_eat, ne_symbol_of_name h, run_name?, h, hparen]

theorem run_primary_call {name : String} (h : (front close tokens).kind.name? = some name)
    (hparen : (front close tokens.tail).kind = .symbol .parenOpen) :
    (primary a).run close tokens =
      let args := (argumentsWith (whole a) (.closeCall name)).run close tokens.tail.tail
      ⟨.call (front close tokens).position name args.value, args.rest, args.problems⟩ := by
  rw [primary]
  simp [peek, literal?_eq_none_of_name h, run_eat, ne_symbol_of_name h, run_name?, h, hparen]

theorem run_primary_none (hliteral : literal? (front close tokens).kind = none)
    (hparen : (front close tokens).kind ≠ .symbol .parenOpen)
    (hname : (front close tokens).kind.name? = none) :
    (primary a).run close tokens =
      ⟨.literal (front close tokens).position .null, tokens,
        [((front close tokens).position,
          .unexpected .expression (front close tokens).kind)]⟩ := by
  rw [primary]
  simp [peek, hliteral, run_eat, hparen, run_name?, hname, reportHere, report]

end Primary

section Arguments

variable (item : Parser Expr)

def commaNext (tokens : List Token) : Bool :=
  (tokens.head?.map (·.kind)) == some (.symbol .comma)

theorem run_sequence_comma (head : Token) :
    (Parser.sequence commaNext (do let _ ← advance; item)).run close (head :: tokens) =
      if head.kind = .symbol .comma then
        let first := item.run close tokens
        let later := (Parser.sequence commaNext (do let _ ← advance; item)).run close first.rest
        ⟨first.value :: later.value, later.rest, first.problems ++ later.problems⟩
      else ⟨[], head :: tokens, []⟩ := by
  -- An item is a suffix of what is behind the comma, so progress need not be forced.
  have hshorter :
      ((do let _ ← advance; item : Parser Expr).run close (head :: tokens)).rest.length <
        (head :: tokens).length :=
    Nat.lt_succ_of_le (item.rest_suffix close tokens).length_le
  by_cases hcomma : head.kind = .symbol .comma
  · rw [if_pos hcomma, run_sequence_cons (by simp [commaNext, hcomma]) hshorter]
    rfl
  · rw [if_neg hcomma, run_sequence_stop (by simp [commaNext, hcomma])]

theorem run_commaSeparated :
    (commaSeparated item).run close tokens =
      let first := item.run close tokens
      if commaNext first.rest then
        let later := (commaSeparated item).run close first.rest.tail
        ⟨first.value :: later.value, later.rest, first.problems ++ later.problems⟩
      else ⟨[first.value], first.rest, first.problems⟩ := by
  have hrun (tokens : List Token) : (commaSeparated item).run close tokens =
      let first := item.run close tokens
      let later := (Parser.sequence commaNext (do let _ ← advance; item)).run close first.rest
      ⟨first.value :: later.value, later.rest, first.problems ++ later.problems⟩ := by
    simp only [commaSeparated, run_bind, run_pure, List.append_nil]
    rfl
  rw [hrun]
  generalize item.run close tokens = first
  obtain ⟨value, rest, problems⟩ := first
  cases rest with
  | nil => simp [Parser.sequence, sequenceRun, commaNext]
  | cons head tail =>
      simp only [run_sequence_comma, List.tail_cons, hrun tail]
      by_cases hcomma : head.kind = .symbol .comma <;> simp [commaNext, hcomma]

theorem run_argumentsWith_none (mark : Mark)
    (h : (front close tokens).kind = .symbol .parenClose) :
    (argumentsWith item mark).run close tokens = ⟨[], tokens.tail, []⟩ := by
  simp [argumentsWith, run_eat, h]

theorem run_argumentsWith_some (mark : Mark) (hmark : mark.symbol = .parenClose)
    (h : (front close tokens).kind ≠ .symbol .parenClose) :
    (argumentsWith item mark).run close tokens =
      let items := (commaSeparated item).run close tokens
      if (front close items.rest).kind = .symbol .parenClose then
        ⟨items.value, items.rest.tail, items.problems⟩
      else ⟨items.value, Skip.past Skip.arguments 0 items.rest, items.problems ++
        [((front close items.rest).position,
          .unexpected (.mark mark) (front close items.rest).kind)]⟩ := by
  by_cases hclose : (front close ((commaSeparated item).run close tokens).rest).kind =
      .symbol .parenClose <;>
    simp [argumentsWith, run_eat, h, run_expect, hmark, hclose, skip]

end Arguments

end Expression

end WireSpec
