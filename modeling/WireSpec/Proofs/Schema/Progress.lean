import WireSpec.Schema.Declaration
import WireSpec.Proofs.Schema.Soundness
/-!
# Reading advances

Each token that is taken pays for three problems.  With that no parser owes more than a few
problems, and what is repeated owes less than none: every turn of a loop takes a token, and the
number of problems is bounded by the number of tokens.
-/

namespace WireSpec

namespace Parser

variable {α β : Type} {p q : Parser α} {f : α → Parser β} {close : Position} {tokens : List Token}
  {m n : Int}

/-- At these tokens, the problems that are met are no more than the debt and three for each token
taken. -/
def OwesAt (close : Position) (tokens : List Token) (p : Parser α) (debt : Int) : Prop :=
  ((p.run close tokens).problems.length : Int) + 3 * (p.run close tokens).rest.length ≤
    3 * tokens.length + debt

def Owes (p : Parser α) (debt : Int) : Prop := ∀ close tokens, OwesAt close tokens p debt

/-- Only a token can pay for a debt below zero. -/
theorem OwesAt.length_lt (h : OwesAt close tokens p n) (hn : n < 0) :
    (p.run close tokens).rest.length < tokens.length := by
  simp only [OwesAt] at h
  omega

theorem OwesAt.mono (h : OwesAt close tokens p m) (hmn : m ≤ n) : OwesAt close tokens p n := by
  simp only [OwesAt] at h ⊢
  omega

theorem OwesAt.bind (hp : OwesAt close tokens p m) (hf : ∀ a, Owes (f a) (n - m)) :
    OwesAt close tokens (p >>= f) n := by
  have hsecond := hf (p.run close tokens).value close (p.run close tokens).rest
  simp only [OwesAt, run_bind, List.length_append] at hp hsecond ⊢
  omega

/-- What is read first is known. -/
theorem OwesAt.of_run {a : α} {rest : List Token} {problems : List (Position × SyntaxError)}
    (hp : p.run close tokens = ⟨a, rest, problems⟩)
    (hf : OwesAt close rest (f a)
      (n + 3 * tokens.length - 3 * rest.length - problems.length)) :
    OwesAt close tokens (p >>= f) n := by
  simp only [OwesAt, run_bind, List.length_append, hp] at hf ⊢
  omega

/-- What begins by taking a token has three problems more to spend. -/
theorem OwesAt.advance {f : Token → Parser β} {head : Token} {tail : List Token}
    (hf : OwesAt close tail (f head) (n + 3)) :
    OwesAt close (head :: tail) (Parser.advance >>= f) n := by
  refine .of_run rfl (hf.mono ?_)
  simp only [List.tail_cons, List.length_cons, List.length_nil]
  omega

theorem OwesAt.peek {f : Token → Parser β} (hf : OwesAt close tokens (f (front close tokens)) n) :
    OwesAt close tokens (Parser.peek >>= f) n := by
  refine .of_run rfl (hf.mono ?_)
  simp only [List.length_nil]
  omega

theorem OwesAt.reportHere {wanted : Expectation} {f : Unit → Parser β}
    (hf : OwesAt close tokens (f ()) (n - 1)) :
    OwesAt close tokens (Parser.reportHere wanted >>= f) n := by
  refine .of_run (run_reportHere wanted) (hf.mono ?_)
  simp only [List.length_singleton]
  omega

/-- A token that is eaten pays for three problems. -/
theorem OwesAt.bindEatKind {kind : TokenKind} {f : Bool → Parser β} (hkind : kind ≠ .endOfInput)
    (hp : Owes (f true) (n + 3)) (hq : OwesAt close tokens (f false) n) :
    OwesAt close tokens (Parser.eatKind kind >>= f) n := by
  by_cases hfront : (front close tokens).kind = kind
  · obtain ⟨head, tail, rfl⟩ := Grammar.exists_cons_of_front (hfront ▸ hkind)
    have hrun : (Parser.eatKind kind).run close (head :: tail) = ⟨true, tail, []⟩ := by
      rw [run_eatKind, if_pos hfront, List.tail_cons]
    refine .of_run hrun ((hp close tail).mono ?_)
    simp only [List.length_cons, List.length_nil]
    omega
  · have hrun : (Parser.eatKind kind).run close tokens = ⟨false, tokens, []⟩ := by
      rw [run_eatKind, if_neg hfront]
    refine .of_run hrun (hq.mono ?_)
    simp only [List.length_nil]
    omega

theorem OwesAt.withName {f : Option String → Parser β} {name : String}
    (hname : (front close tokens).kind.name? = some name) (hf : Owes (f (some name)) (n + 3)) :
    OwesAt close tokens (Parser.name? >>= f) n := by
  obtain ⟨_, head, tail, rfl, _⟩ := Grammar.exists_cons_of_name hname
  have hrun : Parser.name?.run close (head :: tail) = ⟨some name, tail, []⟩ := by
    rw [run_name?, hname, List.tail_cons]
  refine .of_run hrun ((hf close tail).mono ?_)
  simp only [List.length_cons, List.length_nil]
  omega

theorem OwesAt.bindName {f : Option String → Parser β} (hnone : OwesAt close tokens (f none) n)
    (hsome : ∀ name, Owes (f (some name)) (n + 3)) :
    OwesAt close tokens (Parser.name? >>= f) n := by
  cases hname : (front close tokens).kind.name? with
  | some name => exact .withName hname (hsome name)
  | none =>
      have hrun : Parser.name?.run close tokens = ⟨none, tokens, []⟩ := by rw [run_name?, hname]
      refine .of_run hrun (hnone.mono ?_)
      simp only [List.length_nil]
      omega

/-- What passes over the first token takes it. -/
theorem OwesAt.skip {rule : Nat → TokenKind → Skip.Verdict} {head : Token} {tail : List Token}
    (h : rule 0 head.kind ≠ .stopBefore) : OwesAt close (head :: tail) (Parser.skip rule) (-3) := by
  have hlength : (Skip.past rule 0 (head :: tail)).length ≤ tail.length := by
    simp only [Skip.past]
    split
    · contradiction
    · exact Nat.le_refl _
    · exact (Skip.past_suffix rule _ tail).length_le
  simp only [OwesAt, Parser.skip, List.length_cons, List.length_nil]
  omega

namespace Owes

theorem mono (h : Owes p m) (hmn : m ≤ n) : Owes p n :=
  fun close tokens => (h close tokens).mono hmn

theorem bind (hp : Owes p m) (hf : ∀ a, Owes (f a) (n - m)) : Owes (p >>= f) n :=
  fun close tokens => (hp close tokens).bind hf

theorem pure {a : α} (h : 0 ≤ n) : Owes (Pure.pure a) n := by
  intro close tokens
  simp only [OwesAt, run_pure, List.length_nil]
  omega

theorem ite {c : Prop} [Decidable c] (hp : Owes p n) (hq : Owes q n) :
    Owes (if c then p else q) n := by
  split
  · exact hp
  · exact hq

theorem peek {f : Token → Parser β} (hf : ∀ token, Owes (f token) n) :
    Owes (Parser.peek >>= f) n :=
  fun close tokens => .peek (hf _ close tokens)

theorem advance : Owes Parser.advance 0 := by
  intro close tokens
  have hlength : tokens.tail.length ≤ tokens.length := (List.tail_suffix tokens).length_le
  simp only [OwesAt, Parser.advance, List.length_nil]
  omega

theorem skip (rule : Nat → TokenKind → Skip.Verdict) : Owes (Parser.skip rule) 0 := by
  intro close tokens
  have hlength := (Skip.past_suffix rule 0 tokens).length_le
  simp only [OwesAt, Parser.skip, List.length_nil]
  omega

theorem report (position : Position) (error : SyntaxError) :
    Owes (Parser.report position error) 1 := by
  intro close tokens
  simp only [OwesAt, Parser.report, List.length_singleton]
  omega

theorem reportHere (wanted : Expectation) : Owes (Parser.reportHere wanted) 1 :=
  peek fun token => report token.position (.unexpected wanted token.kind)

theorem atKind (kind : TokenKind) : Owes (Parser.atKind kind) 0 :=
  peek fun _ => pure (by decide)

theorem eatKind (kind : TokenKind) : Owes (Parser.eatKind kind) 0 :=
  (atKind kind).bind fun _ => ite (advance.bind fun _ => pure (by decide)) (pure (by decide))

theorem ifEat {symbol : Symbol} {p q : Parser β} (hp : Owes p (n + 3)) (hq : Owes q n) :
    Owes (Parser.eat symbol >>= fun eaten => if eaten then p else q) n :=
  fun close tokens => .bindEatKind (by simp) hp (hq close tokens)

theorem ifEatKeyword {word : Keyword} {p q : Parser β} (hp : Owes p (n + 3)) (hq : Owes q n) :
    Owes (Parser.eatKeyword word >>= fun eaten => if eaten then p else q) n :=
  fun close tokens => .bindEatKind (by simp) hp (hq close tokens)

/-- A mark that is missing is one problem. -/
theorem ifExpect {mark : Mark} {p q : Parser β} (hp : Owes p (n + 3)) (hq : Owes q (n - 1)) :
    Owes (Parser.expect mark >>= fun found => if found then p else q) n := by
  intro close tokens
  by_cases hfront : (front close tokens).kind = .symbol mark.symbol
  · obtain ⟨head, tail, rfl, _⟩ := Grammar.exists_cons_of_symbol hfront
    refine OwesAt.of_run (Grammar.run_expect_ok hfront) ((hp close tail).mono ?_)
    simp only [List.tail_cons, List.length_cons, List.length_nil]
    omega
  · refine OwesAt.of_run ((run_expect mark).trans (if_neg hfront)) ((hq close tokens).mono ?_)
    simp only [List.length_singleton]
    omega

theorem expect (mark : Mark) : Owes (Parser.expect mark) 1 :=
  ifEat (pure (by decide)) ((reportHere _).bind fun _ => pure (by decide))

theorem bindName {f : Option String → Parser β} (hnone : Owes (f none) n)
    (hsome : ∀ name, Owes (f (some name)) (n + 3)) : Owes (Parser.name? >>= f) n :=
  fun close tokens => .bindName (hnone close tokens) hsome

theorem nameOr (wanted : Expectation) : Owes (Parser.nameOr wanted) 1 :=
  bindName ((reportHere wanted).bind fun _ => pure (by decide)) fun _ => pure (by decide)

/-- Items that pay for themselves are repeated without a debt. -/
theorem sequence {goesOn : List Token → Bool}
    (h : ∀ close tokens, goesOn tokens = true → OwesAt close tokens p (-1)) :
    Owes (Parser.sequence goesOn p) 0 := by
  intro close tokens
  simp only [OwesAt, Parser.sequence]
  fun_induction sequenceRun goesOn p close tokens with
  | case1 => simp
  | case2 head tail hgoes first later ih =>
      have hfirst : OwesAt close (head :: tail) p (-1) := h close (head :: tail) hgoes
      have hshorter : first.rest.length < (head :: tail).length := hfirst.length_lt (by decide)
      have hpaid : (first.problems.length : Int) + 3 * first.rest.length ≤
          3 * (head :: tail).length + -1 := hfirst
      have hlater : (later.problems.length : Int) + 3 * later.rest.length ≤
          3 * (remaining (head :: tail) first.rest).length + 0 := ih
      rw [show remaining (head :: tail) first.rest = first.rest from if_pos hshorter] at hlater
      simp only [List.length_append]
      omega
  | case3 => simp

end Owes

/-- A turn of a repetition ends it, or takes a token and goes on behind what it took. -/
def Advances (goesOn : List Token → Bool) (item : Parser α) : Prop :=
  ∀ close tokens,
    (sequence goesOn item).run close tokens = ⟨[], tokens, []⟩ ∨
    (item.run close tokens).rest.length < tokens.length ∧
      (sequence goesOn item).run close tokens =
        let first := item.run close tokens
        let later := (sequence goesOn item).run close first.rest
        ⟨first.value :: later.value, later.rest, first.problems ++ later.problems⟩

theorem Advances.of_owesAt {goesOn : List Token → Bool}
    (h : ∀ close tokens, goesOn tokens = true → OwesAt close tokens p (-1)) :
    Advances goesOn p := by
  intro close tokens
  cases hgoes : goesOn tokens with
  | false => exact Or.inl (run_sequence_stop hgoes)
  | true =>
      have hshorter := (h close tokens hgoes).length_lt (by decide)
      exact Or.inr ⟨hshorter, run_sequence_cons hgoes hshorter⟩

end Parser

namespace Skip

theorem past_cons (rule : Nat → TokenKind → Verdict) (depth : Nat) (head : Token)
    (tail : List Token) :
    past rule depth (head :: tail) = head :: tail ∨ past rule depth (head :: tail) = tail ∨
      ∃ deeper, past rule depth (head :: tail) = past rule deeper tail := by
  cases h : rule depth head.kind with
  | stopBefore => exact Or.inl (by simp only [past, h])
  | stopBehind => exact Or.inr (Or.inl (by simp only [past, h]))
  | goOn deeper => exact Or.inr (Or.inr ⟨deeper, by simp only [past, h]⟩)

end Skip

open WireSpec.Parser

/-! ### Expressions -/

namespace Expression

variable {close : Position} {tokens : List Token} {a : Nat} {item : Parser Expr}

theorem owes_tooDeep : Owes tooDeep 1 :=
  .peek fun token => (Owes.report token.position .nestedTooDeeply).bind fun _ =>
    Owes.skip Skip.subexpression

theorem owesAt_comma (h : Owes item 1) (hcomma : commaNext tokens = true) :
    OwesAt close tokens (do let _ ← advance; item) (-1) := by
  obtain ⟨comma, tail, rfl, _⟩ := Grammar.exists_cons_of_commaNext hcomma
  exact .advance ((h close tail).mono (by decide))

theorem owes_commaSeparated (h : Owes item 1) : Owes (commaSeparated item) 1 :=
  h.bind fun _ => (Owes.sequence fun _ _ => owesAt_comma h).bind fun _ => .pure (by decide)

/-- An argument and the parenthesis can be missing. -/
theorem owes_argumentsWith (h : Owes item 1) (mark : Mark) : Owes (argumentsWith item mark) 2 :=
  .ifEat (.pure (by decide)) <| (owes_commaSeparated h).bind fun _ =>
    .ifExpect (.pure (by decide)) ((Owes.skip Skip.arguments).bind fun _ => .pure (by decide))

/-! Operators and accesses are read behind an expression by loops that carry what has been read so
far.  `go` is such a loop, with what is left of the allowance. -/

/-- A turn of a loop leaves the expression as it is and ends the loop, or makes it part of a larger
one, takes tokens for that and goes on behind them. -/
def Turns (go : Nat → Expr → List Token → Outcome Expr) (a : Nat) (e : Expr)
    (tokens : List Token) : Prop :=
  ((go a e tokens).value = e ∧
    (go a e tokens).problems.length + 3 * (go a e tokens).rest.length ≤ 3 * tokens.length) ∨
  ∃ b < a, ∃ e' rest problems, rest.length < tokens.length ∧
    problems.length + 3 * rest.length ≤ 3 * tokens.length ∧
      go a e tokens = (go b e' rest).behind problems

theorem owes_of_turns (go : Nat → Expr → List Token → Outcome Expr) {a : Nat} (e : Expr)
    (tokens : List Token) (h : ∀ b ≤ a, ∀ e tokens, Turns go b e tokens) :
    (go a e tokens).problems.length + 3 * (go a e tokens).rest.length ≤ 3 * tokens.length := by
  induction a using Nat.strongRecOn generalizing e tokens with
  | ind a ih =>
      rcases h a (Nat.le_refl a) e tokens with
        ⟨_, hpaid⟩ | ⟨b, hb, e', rest, problems, _, hpaid, hgo⟩
      · exact hpaid
      · have hlater := ih b hb e' rest fun c hc => h c (by omega)
        rw [hgo]
        simp only [Outcome.behind, List.length_append]
        omega

/-- Where the allowance is used up, at least the token in front is passed over. -/
theorem paid_tooDeep {head : Token} (tail : List Token)
    (h : Skip.subexpression 0 head.kind ≠ .stopBefore) :
    1 + 3 * (Skip.past Skip.subexpression 0 (head :: tail)).length ≤
      3 * (head :: tail).length := by
  have hskip : OwesAt .start (head :: tail) (Parser.skip Skip.subexpression) (-3) := .skip h
  simp only [OwesAt, Parser.skip, List.length_nil] at hskip
  omega

theorem turns_chain {k : Nat} (hk : k < 10) (h : ∀ b < a, Owes (binary b (Grammar.levels k)) 1)
    (left : Expr) (tokens : List Token) : Turns (Grammar.goChain k close) a left tokens := by
  cases hfront : operatorIn? (Grammar.row k) (front close tokens).kind with
  | none => exact Or.inl (by simp [Grammar.goChain, run_chain_stop hfront])
  | some op =>
      obtain ⟨hkind, _⟩ := (Grammar.operatorIn?_eq_some hk).mp hfront
      obtain ⟨head, tail, rfl, hhead⟩ := Grammar.exists_cons_of_symbol hkind
      cases a with
      | zero =>
          have hskip : Skip.subexpression 0 head.kind ≠ .stopBefore := by
            simp [hhead, Grammar.isPlain_operator op 0]
          refine Or.inl ?_
          rw [Grammar.goChain, run_chain_zero hfront]
          exact ⟨rfl, paid_tooDeep tail hskip⟩
      | succ a =>
          have hright := h a (Nat.lt_succ_self a) close tail
          have hlength := ((binary a (Grammar.levels k)).rest_suffix close tail).length_le
          refine Or.inr ⟨a, Nat.lt_succ_self a, _, _, _, ?_, ?_, run_chain_succ hfront⟩
          · exact Nat.lt_succ_of_le hlength
          · simp only [OwesAt, List.tail_cons, List.length_cons] at hright ⊢
            omega

theorem turns_member (object : Expr) {head : Token} {tail : List Token}
    (hhead : head.kind = .symbol .dot) :
    Turns (Grammar.goAccess close) (a + 1) object (head :: tail) := by
  have hdot : (front close (head :: tail)).kind = .symbol .dot := hhead
  have hrun : Grammar.goAccess close (a + 1) object (head :: tail) = _ := run_access_dot hdot
  cases hname : (front close tail).kind.name? with
  | none =>
      rw [List.tail_cons, hname] at hrun
      refine Or.inl ?_
      rw [hrun]
      simp only [List.length_cons, List.length_nil, true_and]
      omega
  | some name =>
      rw [List.tail_cons, hname] at hrun
      have hlength : tail.tail.length ≤ tail.length := (List.tail_suffix tail).length_le
      refine Or.inr ⟨a, Nat.lt_succ_self a, .member object name, tail.tail, [], ?_, ?_, ?_⟩
      · exact Nat.lt_succ_of_le hlength
      · simp only [List.length_nil, List.length_cons]
        omega
      · exact hrun

theorem turns_index (h : Owes (whole a) 1) (object : Expr) {head : Token} {tail : List Token}
    (hhead : head.kind = .symbol .bracketOpen) :
    Turns (Grammar.goAccess close) (a + 1) object (head :: tail) := by
  have hbracket : (front close (head :: tail)).kind = .symbol .bracketOpen := hhead
  have hstart := h close tail
  have hexpect (tokens : List Token) := Owes.expect .closeIndex close tokens
  by_cases hdots : (front close ((whole a).run close tail).rest).kind = .symbol .dotDot
  · obtain ⟨dots, tail', hrest, _⟩ := Grammar.exists_cons_of_symbol hdots
    have hstop := h close tail'
    have hclosing := hexpect ((whole a).run close tail').rest
    refine Or.inr ⟨a, Nat.lt_succ_self a, _, _, _, ?_, ?_, run_access_slice hbracket hdots⟩
    · simp only [OwesAt, List.tail_cons, hrest, List.length_cons] at hstart hstop hclosing ⊢
      omega
    · simp only [OwesAt, List.tail_cons, hrest, List.length_cons, List.length_append]
        at hstart hstop hclosing ⊢
      omega
  · have hclosing := hexpect ((whole a).run close tail).rest
    refine Or.inr ⟨a, Nat.lt_succ_self a, _, _, _, ?_, ?_, run_access_index hbracket hdots⟩
    · simp only [OwesAt, List.tail_cons, List.length_cons] at hstart hclosing ⊢
      omega
    · simp only [OwesAt, List.tail_cons, List.length_cons, List.length_append]
        at hstart hclosing ⊢
      omega

theorem turns_access (h : ∀ b < a, Owes (whole b) 1) (object : Expr) (tokens : List Token) :
    Turns (Grammar.goAccess close) a object tokens := by
  by_cases hgoes : (front close tokens).kind = .symbol .dot ∨
      (front close tokens).kind = .symbol .bracketOpen
  · cases a with
    | zero =>
        obtain ⟨head, tail, rfl, hskip⟩ : ∃ head tail, tokens = head :: tail ∧
            Skip.subexpression 0 head.kind ≠ .stopBefore := by
          rcases hgoes with hdot | hbracket
          · obtain ⟨head, tail, rfl, hhead⟩ := Grammar.exists_cons_of_symbol hdot
            exact ⟨head, tail, rfl, by simp [hhead, Skip.subexpression]⟩
          · obtain ⟨head, tail, rfl, hhead⟩ := Grammar.exists_cons_of_symbol hbracket
            exact ⟨head, tail, rfl, by simp [hhead, Skip.subexpression]⟩
        refine Or.inl ?_
        rw [Grammar.goAccess, run_access_zero hgoes]
        exact ⟨rfl, paid_tooDeep tail hskip⟩
    | succ a =>
        rcases hgoes with hdot | hbracket
        · obtain ⟨head, tail, rfl, hhead⟩ := Grammar.exists_cons_of_symbol hdot
          exact turns_member object hhead
        · obtain ⟨head, tail, rfl, hhead⟩ := Grammar.exists_cons_of_symbol hbracket
          exact turns_index (h a (Nat.lt_succ_self a)) object hhead
  · obtain ⟨hdot, hbracket⟩ := not_or.mp hgoes
    exact Or.inl (by simp [Grammar.goAccess, run_access_stop hdot hbracket])

theorem owes_primary (h : Owes (whole a) 1) : Owes (primary a) 1 := by
  rw [primary]
  refine .peek fun token => ?_
  cases literal? token.kind with
  | some value => exact Owes.advance.bind fun _ => .pure (by decide)
  | none =>
      refine .ifEat (h.bind fun inner => ?_) ?_
      · exact (Owes.expect .closeGroup).bind fun _ => .pure (by decide)
      · refine .bindName ((Owes.reportHere .expression).bind fun _ => .pure (by decide)) ?_
        intro name
        refine .ifEat ?_ (.pure (by decide))
        exact (owes_argumentsWith h (.closeCall name)).bind fun _ => .pure (by decide)

/-- Only what an expression should begin with can be missing without a token to pay for it. -/
theorem owes_unary (h : ∀ b < a, Owes (unary b) 1 ∧ Owes (whole b) 1) : Owes (unary a) 1 := by
  cases a with
  | zero =>
      rw [unary]
      exact .peek fun token => owes_tooDeep.bind fun _ => .pure (by decide)
  | succ a =>
      obtain ⟨hunary, hwhole⟩ := h a (Nat.lt_succ_self a)
      rw [unary, operand]
      refine .peek fun token => ?_
      cases prefixOp? token.kind with
      | some op => exact Owes.advance.bind fun _ => hunary.bind fun _ => .pure (by decide)
      | none =>
          refine (owes_primary hwhole).bind fun object => fun close tokens => ?_
          have hpaid := owes_of_turns (Grammar.goAccess close) (a := a) object tokens
            fun b hb => turns_access fun c hc => (h c (by omega)).2
          simp only [Grammar.goAccess] at hpaid
          simp only [OwesAt]
          omega

theorem owes_binary (a : Nat) : ∀ k ≤ 10, Owes (binary a (Grammar.levels k)) 1 := by
  induction a using Nat.strongRecOn with
  | ind a ih =>
      intro k hk
      induction k with
      | zero =>
          rw [show Grammar.levels 0 = [] from rfl, binary]
          refine owes_unary fun b hb => ⟨?_, ?_⟩
          · have hbelow := ih b hb 0 (by omega)
            rwa [show Grammar.levels 0 = [] from rfl, binary] at hbelow
          · rw [whole]
            exact ih b hb 10 (by omega)
      | succ k ihk =>
          rw [Grammar.levels_succ k hk, binary]
          refine (ihk (by omega)).bind fun left => fun close tokens => ?_
          have hpaid := owes_of_turns (Grammar.goChain k close) (a := a) left tokens
            fun b hb => turns_chain hk fun c hc => ih c (by omega) k (by omega)
          simp only [Grammar.goChain] at hpaid
          simp only [OwesAt]
          omega

theorem owes_whole (a : Nat) : Owes (whole a) 1 := by
  rw [whole]
  exact owes_binary a 10 (Nat.le_refl 10)

theorem owes_expression : Owes expression 1 := owes_whole nestingLimit

end Expression

/-! ### Declarations -/

namespace Declaration

variable {α : Type} {close : Position} {tokens : List Token}

theorem exists_cons_of_inBody (h : inBody tokens = true) :
    ∃ head tail, tokens = head :: tail ∧ head.kind.staysInBody = true := by
  cases tokens with
  | nil => cases h
  | cons head tail => exact ⟨head, tail, rfl, by simpa [inBody] using h⟩

/-- Recovery in a body passes over at least one token of it. -/
theorem owesAt_skip_inBody {rule : Nat → TokenKind → Skip.Verdict}
    (hrule : ∀ kind : TokenKind, kind.staysInBody = true → rule 0 kind ≠ .stopBefore)
    (h : inBody tokens = true) : OwesAt close tokens (skip rule) (-3) := by
  obtain ⟨head, tail, rfl, hhead⟩ := exists_cons_of_inBody h
  exact .skip (hrule head.kind hhead)

theorem statement_ne_stopBefore (kind : TokenKind) (h : kind.staysInBody = true) :
    Skip.statement 0 kind ≠ .stopBefore := by
  unfold TokenKind.staysInBody at h
  unfold Skip.statement
  split <;> simp_all

theorem enumMember_ne_stopBefore (kind : TokenKind) (h : kind.staysInBody = true) :
    Skip.enumMember 0 kind ≠ .stopBefore := by
  unfold Skip.enumMember
  split <;> simp_all

theorem declaration_ne_stopBefore (kind : TokenKind) (h : kind.staysInBody = true) :
    Skip.declaration 0 kind ≠ .stopBefore := by
  unfold TokenKind.staysInBody at h
  unfold Skip.declaration
  split <;> simp_all

theorem owes_body {item : Parser (Option α)}
    (h : ∀ close tokens, inBody tokens = true → OwesAt close tokens item (-1)) :
    Owes (body item) 0 :=
  (Owes.sequence h).bind fun _ => .pure (by decide)

theorem owesAt_enumMember (h : inBody tokens = true) : OwesAt close tokens enumMember (-1) := by
  refine .bindName ?_ fun name => ?_
  · exact .reportHere ((owesAt_skip_inBody enumMember_ne_stopBefore h).bind fun _ =>
      .pure (by decide))
  · refine .ifExpect ?_ ((Owes.skip _).bind fun _ => .pure (by decide))
    refine Expression.owes_expression.bind fun value => .ifEat (.pure (by decide)) ?_
    refine (Owes.atKind _).bind fun closed => .ite (.pure (by decide)) ?_
    exact (Owes.reportHere _).bind fun _ => (Owes.skip _).bind fun _ => .pure (by decide)

theorem owesAt_modifier (h : startsModifier tokens = true) :
    OwesAt close tokens modifier (-1) := by
  match tokens, h with
  | name :: opening :: tail, _ =>
      refine .advance (.advance ?_)
      exact (Expression.owes_argumentsWith Expression.owes_expression _ close tail).bind
        fun arguments => .pure (by decide)

theorem owes_fieldEnd (name : String) : Owes (fieldEnd name) 1 :=
  .ifEat (.pure (by decide)) <| (Owes.reportHere _).bind fun _ =>
    .peek fun _ => .ite (.pure (by decide)) ((Owes.skip _).mono (by decide))

theorem owes_modifiers : Owes (Parser.sequence startsModifier modifier) 0 :=
  .sequence fun _ _ => owesAt_modifier

section FieldType

variable {start : Position}

theorem run_fieldType_type {type : ScalarType}
    (h : (front close tokens).kind = .keyword (.type type)) :
    (fieldType start).run close tokens = ⟨(true, some type), tokens.tail, []⟩ := by
  simp [fieldType, peek, h, advance]

theorem run_fieldType_unknown {word : String} (h : (front close tokens).kind = .identifier word)
    (hname : (front close tokens.tail).kind.name?.isSome = true) :
    (fieldType start).run close tokens =
      ⟨(true, none), tokens.tail, [((front close tokens).position, .unknownFieldType word)]⟩ := by
  simp [fieldType, peek, h, peekSecond, hname, advance, report]

theorem run_fieldType_missing {word : String} (h : (front close tokens).kind = .identifier word)
    (hname : (front close tokens.tail).kind.name?.isSome = false) :
    (fieldType start).run close tokens =
      ⟨(true, none), tokens, [(start, .missingFieldType word)]⟩ := by
  simp [fieldType, peek, h, peekSecond, hname, report]

theorem run_fieldType_none (htype : ∀ type, (front close tokens).kind ≠ .keyword (.type type))
    (hword : ∀ word, (front close tokens).kind ≠ .identifier word) :
    (fieldType start).run close tokens = ⟨(false, none), tokens,
      [((front close tokens).position, .unexpected .fieldType (front close tokens).kind)]⟩ := by
  cases hkind : (front close tokens).kind with
  | identifier word => exact absurd hkind (hword word)
  | keyword word =>
      cases word with
      | type type => exact absurd hkind (htype type)
      | _ => simp [fieldType, peek, hkind, run_reportHere]
  | _ => simp [fieldType, peek, hkind, run_reportHere]

end FieldType

/-- A type is read, or a name in its place; or a name is left to be the name of the field; or there
is no field. -/
theorem fieldType_cases (start close : Position) (tokens : List Token) :
    (∃ type problems, (front close tokens).kind ≠ .endOfInput ∧ problems.length ≤ 1 ∧
      (fieldType start).run close tokens = ⟨(true, type), tokens.tail, problems⟩) ∨
    (∃ problem, (front close tokens).kind.name?.isSome = true ∧
      (fieldType start).run close tokens = ⟨(true, none), tokens, [problem]⟩) ∨
    ∃ problem, (fieldType start).run close tokens = ⟨(false, none), tokens, [problem]⟩ := by
  cases hkind : (front close tokens).kind with
  | keyword word =>
      cases word with
      | type type => exact Or.inl ⟨_, _, by simp, by simp, run_fieldType_type hkind⟩
      | _ => exact Or.inr (Or.inr ⟨_, run_fieldType_none (by simp [hkind]) (by simp [hkind])⟩)
  | identifier word =>
      cases hsecond : (front close tokens.tail).kind.name?.isSome with
      | true => exact Or.inl ⟨_, _, by simp, by simp, run_fieldType_unknown hkind hsecond⟩
      | false => exact Or.inr (Or.inl ⟨_, rfl, run_fieldType_missing hkind hsecond⟩)
  | _ => exact Or.inr (Or.inr ⟨_, run_fieldType_none (by simp [hkind]) (by simp [hkind])⟩)

/-- A type, or the name in its place, pays for what can be missing of the field behind it. -/
theorem owesAt_fieldType {β : Type} {start : Position} {debt : Int}
    {k : Bool × Option ScalarType → Parser β} {g : Option ScalarType → Option String → Parser β}
    (hdebt : -1 ≤ debt) (hk : ∀ type, k (true, type) = name? >>= g type)
    (hunnamed : ∀ type, Owes (g type none) 1)
    (hnamed : ∀ type name, Owes (g type (some name)) 1)
    (hnone : OwesAt close tokens (k (false, none)) (debt - 1)) :
    OwesAt close tokens (fieldType start >>= k) debt := by
  rcases fieldType_cases start close tokens with
    ⟨type, problems, hend, hone, hrun⟩ | ⟨problem, hfront, hrun⟩ | ⟨problem, hrun⟩
  · obtain ⟨head, tail, rfl⟩ := Grammar.exists_cons_of_front hend
    have hname : Owes (name? >>= g type) 1 :=
      .bindName (hunnamed type) fun name => (hnamed type name).mono (by decide)
    refine .of_run hrun (hk type ▸ (hname close tail).mono ?_)
    simp only [List.tail_cons, List.length_cons]
    omega
  · -- The name is still there to be read.
    obtain ⟨name, hname⟩ := Option.isSome_iff_exists.mp hfront
    refine .of_run hrun (hk none ▸ .withName hname ((hnamed none name).mono ?_))
    simp only [List.length_singleton]
    omega
  · refine .of_run hrun (hnone.mono ?_)
    simp only [List.length_singleton]
    omega

theorem owesAt_field (h : inBody tokens = true) : OwesAt close tokens field (-1) := by
  have hunnamed : Owes (do
      reportHere .fieldName
      skip Skip.statement
      return (none : Option FieldDecl)) 1 :=
    (Owes.reportHere _).bind fun _ => (Owes.skip _).bind fun _ => .pure (by decide)
  have hnamed (name : String) (make : List Modifier → Option FieldDecl) : Owes (do
      let modifiers ← Parser.sequence startsModifier modifier
      fieldEnd name
      return make modifiers) 1 :=
    owes_modifiers.bind fun _ => (owes_fieldEnd name).bind fun _ => .pure (by decide)
  refine .peek (.bindEatKind (by simp) (fun close tokens => ?_) ?_)
  · refine owesAt_fieldType (by decide) (fun _ => rfl) (fun _ => hunnamed)
      (fun _ name => hnamed name _) ?_
    exact (Owes.skip _ close tokens).bind fun _ => .pure (by decide)
  · refine owesAt_fieldType (by decide) (fun _ => rfl) (fun _ => hunnamed)
      (fun _ name => hnamed name _) ?_
    exact (owesAt_skip_inBody statement_ne_stopBefore h).bind fun _ => .pure (by decide)

theorem owesAt_messageItem (h : inBody tokens = true) : OwesAt close tokens messageItem (-1) :=
  .bindEatKind (by simp) (.pure (by decide)) (owesAt_field h)

theorem owesAt_action (h : inBody tokens = true) : OwesAt close tokens action (-1) := by
  obtain ⟨head, tail, rfl, _⟩ := exists_cons_of_inBody h
  refine .peek ?_
  cases actionKind? (front close (head :: tail)).kind with
  | none =>
      exact .reportHere ((owesAt_skip_inBody statement_ne_stopBefore h).bind fun _ =>
        .pure (by decide))
  | some kind =>
      refine .advance (Owes.bind (m := 1) Expression.owes_expression (fun value => ?_) close tail)
      exact .ifExpect (.pure (by decide)) ((Owes.skip _).bind fun _ => .pure (by decide))

/-- Each part of the heading of a rule can be missing, but not more than one of them. -/
theorem owesAt_rule {head : Token} {tail : List Token} :
    OwesAt close (head :: tail) rule (-1) := by
  refine .advance (Owes.ifExpect ?_ ?_ close tail)
  · refine Expression.owes_expression.bind fun condition => .ifExpect (.ifExpect ?_ ?_) ?_
    · refine (owes_body fun _ _ => owesAt_action).bind fun actions => .peek fun token => .ite ?_ ?_
      · exact (Owes.reportHere _).bind fun _ => .pure (by decide)
      · exact (Owes.expect _).bind fun _ => .pure (by decide)
    · exact (Owes.skip _).bind fun _ => .pure (by decide)
    · exact (Owes.skip _).bind fun _ => .pure (by decide)
  · exact (Owes.skip _).bind fun _ => .pure (by decide)

theorem owesAt_ruleItem (h : inBody tokens = true) : OwesAt close tokens ruleItem (-1) := by
  obtain ⟨head, tail, rfl, _⟩ := exists_cons_of_inBody h
  refine .of_run (run_atKind _) ?_
  split
  · exact owesAt_rule.mono (by simp)
  · refine .reportHere ((owesAt_skip_inBody declaration_ne_stopBefore h).bind fun _ =>
      .pure (by simp))

theorem owes_baseName : Owes baseName 0 := by
  refine .ifEatKeyword (.bindName ?_ fun name => .pure (by decide)) (.pure (by decide))
  exact (Owes.reportHere _).bind fun _ => .pure (by decide)

theorem owes_importAlias : Owes importAlias 0 := by
  refine .ifEatKeyword (.bindName ?_ fun name => .pure (by decide)) (.pure (by decide))
  exact (Owes.reportHere _).bind fun _ => .pure (by decide)

section Items

variable {head : Token} {tail : List Token}

theorem owesAt_importDecl : OwesAt close (head :: tail) importDecl (-1) := by
  refine .advance (Owes.peek (fun token => ?_) close tail)
  split
  · refine (Owes.advance).bind fun _ => owes_importAlias.bind fun localName => ?_
    exact .ifExpect (.pure (by decide)) ((Owes.skip _).bind fun _ => .pure (by decide))
  · exact (Owes.reportHere _).bind fun _ => (Owes.skip _).bind fun _ => .pure (by decide)

theorem owesAt_enumDecl : OwesAt close (head :: tail) enumDecl (-1) := by
  refine .advance (Owes.bind (m := 1) (.nameOr _) (fun name => .ifExpect ?_ ?_) close tail)
  · refine (owes_body fun _ _ => owesAt_enumMember).bind fun members => ?_
    exact (Owes.expect _).bind fun _ => .pure (by decide)
  · exact (Owes.skip _).bind fun _ => .pure (by decide)

theorem owesAt_messageDecl : OwesAt close (head :: tail) messageDecl (-1) := by
  refine .advance (Owes.bind (m := 1) (.nameOr _) (fun name => ?_) close tail)
  refine owes_baseName.bind fun base => .ifExpect ?_ ?_
  · refine (owes_body fun _ _ => owesAt_messageItem).bind fun fields => ?_
    exact (Owes.expect _).bind fun _ => .pure (by decide)
  · exact (Owes.skip _).bind fun _ => .pure (by decide)

theorem owesAt_parserSection : OwesAt close (head :: tail) parserSection (-1) := by
  refine .advance (Owes.ifExpect ?_ ?_ close tail)
  · refine (owes_body fun _ _ => owesAt_ruleItem).bind fun rules => ?_
    exact (Owes.expect _).bind fun _ => .pure (by decide)
  · exact (Owes.skip _).bind fun _ => .pure (by decide)

theorem owesAt_metaValue : OwesAt close (head :: tail) metaValue (-1) := by
  have hread (text : String) : Owes (do
      let _ ← advance
      let _ ← eat .semicolon
      return some text) 1 :=
    Owes.advance.bind fun _ => (Owes.eatKind _).bind fun _ => .pure (by decide)
  have hmissing (word : String) : Owes (do
      reportHere (.metaValue word)
      skip Skip.statement
      return (none : Option String)) 1 :=
    (Owes.reportHere _).bind fun _ => (Owes.skip _).bind fun _ => .pure (by decide)
  refine .advance (Owes.ifEat (.peek fun token => ?_) ?_ close tail)
  · split
    · exact (hread _).mono (by decide)
    · exact (hmissing _).mono (by decide)
  · refine (Owes.eatKind _).bind fun _ => .peek fun token => ?_
    split
    · exact (hread _).mono (by decide)
    · exact (hmissing _).mono (by decide)

end Items

theorem owesAt_item (h : inProtocol tokens = true) : OwesAt close tokens item (-1) := by
  obtain ⟨head, tail, rfl⟩ : ∃ head tail, tokens = head :: tail := by
    cases tokens with
    | nil => cases h
    | cons head tail => exact ⟨head, tail, rfl⟩
  have hhead : head.kind ≠ .endOfInput ∧ head.kind ≠ .symbol .braceClose := by
    simpa [inProtocol] using h
  refine .peek ?_
  split
  · exact owesAt_enumDecl.bind fun _ => .pure (by decide)
  · exact owesAt_messageDecl.bind fun _ => .pure (by decide)
  · exact owesAt_parserSection.bind fun _ => .pure (by decide)
  · exact owesAt_importDecl.bind fun _ => .pure (by decide)
  · exact owesAt_metaValue.bind fun _ => .pure (by decide)
  · exact owesAt_metaValue.bind fun _ => .pure (by decide)
  · exact .advance (Owes.pure (by decide) close tail)
  · have hskip : Skip.declaration 0 head.kind ≠ .stopBefore := by
      refine declaration_ne_stopBefore _ ?_
      simp_all [front, TokenKind.staysInBody, TokenKind.startsDeclaration]
    exact .reportHere ((OwesAt.skip hskip).bind fun _ => .pure (by decide))

/-- The keyword, the name and the marks of a protocol can be missing, and more can stand behind
it. -/
theorem owes_protocol : Owes protocol 5 := by
  have hbody (name : String) : Owes (do
      let _ ← expect .openProtocol
      let items ← Parser.sequence inProtocol item
      let _ ← expect .closeProtocol
      skip Skip.invalid
      unless ← atKind .endOfInput do reportHere .endOfDefinition
      return some ((items.filterMap id).foldl addItem (emptyProtocol name))) 3 := by
    refine (Owes.expect _).bind fun _ => (Owes.sequence fun _ _ => owesAt_item).bind fun _ => ?_
    refine (Owes.expect _).bind fun _ => (Owes.skip _).bind fun _ => ?_
    refine (Owes.atKind _).bind fun _ => ?_
    exact .ite (.pure (by decide)) ((Owes.reportHere _).bind fun _ => .pure (by decide))
  refine (Owes.skip _).bind fun _ => (Owes.atKind _).bind fun ended => .ite ?_ ?_
  · exact (Owes.reportHere _).bind fun _ => .pure (by decide)
  · refine .ifEatKeyword ((Owes.nameOr _).bind fun name => (hbody name).mono (by decide)) ?_
    refine (Owes.reportHere _).bind fun _ => (Owes.nameOr _).bind fun name => ?_
    exact (hbody name).mono (by decide)

theorem length_problems_protocol_le (close : Position) (tokens : List Token) :
    (protocol.run close tokens).problems.length ≤ 4 * (tokens.length + 1) := by
  cases tokens with
  | nil =>
      -- The end of the text alone is one problem.
      simp [protocol, skip, Skip.past, atKind, peek, front, reportHere, report]
  | cons head tail =>
      have howes := owes_protocol close (head :: tail)
      simp only [OwesAt, List.length_cons] at howes ⊢
      omega

end Declaration

/-- Each turn of every repetition ends it or takes a token, without being made to: of the items of a
definition, of the bodies of its declarations, of modifiers, of arguments, of operators and
accesses behind an expression, and of the tokens that recovery passes over.  So there is always a
result, with at most four problems for each token and the end of the text. -/
theorem Protocol.parse_advances :
    (Advances Declaration.inProtocol Declaration.item ∧
      Advances Declaration.inBody Declaration.enumMember ∧
      Advances Declaration.inBody Declaration.messageItem ∧
      Advances Declaration.startsModifier Declaration.modifier ∧
      Advances Declaration.inBody Declaration.ruleItem ∧
      Advances Declaration.inBody Declaration.action ∧
      ∀ a, Advances Expression.commaNext (do let _ ← advance; Expression.whole a)) ∧
    (∀ close a e tokens,
      (∀ k : Fin 10, Expression.Turns (Grammar.goChain k close) a e tokens) ∧
      Expression.Turns (Grammar.goAccess close) a e tokens) ∧
    (∀ rule depth head tail,
      Skip.past rule depth (head :: tail) = head :: tail ∨
      Skip.past rule depth (head :: tail) = tail ∨
      ∃ deeper, Skip.past rule depth (head :: tail) = Skip.past rule deeper tail) ∧
    ∀ tokens, (Protocol.parse tokens).problems.length ≤ 4 * (tokens.length + 1) := by
  refine ⟨⟨?_, ?_, ?_, ?_, ?_, ?_, fun a => ?_⟩, fun close a e tokens => ⟨fun k => ?_, ?_⟩,
    Skip.past_cons, fun tokens => ?_⟩
  · exact .of_owesAt fun _ _ => Declaration.owesAt_item
  · exact .of_owesAt fun _ _ => Declaration.owesAt_enumMember
  · exact .of_owesAt fun _ _ => Declaration.owesAt_messageItem
  · exact .of_owesAt fun _ _ => Declaration.owesAt_modifier
  · exact .of_owesAt fun _ _ => Declaration.owesAt_ruleItem
  · exact .of_owesAt fun _ _ => Declaration.owesAt_action
  · exact .of_owesAt fun _ _ => Expression.owesAt_comma (Expression.owes_whole a)
  · exact Expression.turns_chain k.isLt
      (fun b _ => Expression.owes_binary b k (Nat.le_of_lt k.isLt)) e tokens
  · exact Expression.turns_access (fun b _ => Expression.owes_whole b) e tokens
  · exact Declaration.length_problems_protocol_le _ tokens

end WireSpec
