import WireSpec.Schema.Declaration
import WireSpec.Proofs.Schema.Progress
/-!
# Recovery resumes at the next boundary

Whatever stands in front of the semicolon of a statement, reading a field neither ends before the
statement does nor goes beyond it; and a declaration whose heading cannot be read is passed over
with its whole block.  Nothing that is met on the way depends on what stands behind.
-/

namespace WireSpec

namespace TokenKind

/-- In front of the block of a declaration. -/
def staysInHeading (kind : TokenKind) : Bool := kind.staysInBody && kind != .symbol .braceOpen

/-- In front of the semicolon of a statement. -/
def staysInStatement (kind : TokenKind) : Bool := kind.staysInHeading && kind != .symbol .semicolon

theorem staysInHeading_iff {kind : TokenKind} :
    kind.staysInHeading = true ↔ kind.staysInBody = true ∧ kind ≠ .symbol .braceOpen := by
  simp [staysInHeading]

theorem staysInStatement_iff {kind : TokenKind} :
    kind.staysInStatement = true ↔ kind.staysInHeading = true ∧ kind ≠ .symbol .semicolon := by
  simp [staysInStatement]

end TokenKind

/-- What stands in front of a semicolon, whether it is a statement or not. -/
structure Statement (inside : List Token) (semicolon : Token) : Prop where
  stays : ∀ t ∈ inside, t.kind.staysInStatement = true
  ends : semicolon.kind = .symbol .semicolon

open WireSpec.Parser

namespace Statement

variable {inside inside' : List Token} {semicolon : Token} {close : Position}

theorem suffix (h : Statement inside semicolon) (hsuffix : inside' <:+ inside) :
    Statement inside' semicolon :=
  ⟨fun t ht => h.stays t (hsuffix.subset ht), h.ends⟩

theorem exists_cons (h : Statement inside semicolon) (close : Position)
    (hfront : (front close (inside ++ [semicolon])).kind ≠ .symbol .semicolon) :
    ∃ head tail, inside = head :: tail := by
  cases inside with
  | nil => exact absurd h.ends hfront
  | cons head tail => exact ⟨head, tail, rfl⟩

end Statement

namespace Parser

variable {α β : Type} {p q : Parser α} {f : α → Parser β} {close : Position}
  {inside : List Token} {semicolon : Token}

/-- Reading ends inside of the statement, and what it finds depends on nothing behind it. -/
def KeepsAt (p : Parser α) (close : Position) (inside : List Token) (semicolon : Token) : Prop :=
  ∃ value inside' problems, inside' <:+ inside ∧ ∀ behind,
    p.run close (inside ++ semicolon :: behind) = ⟨value, inside' ++ semicolon :: behind, problems⟩

def Keeps (p : Parser α) : Prop :=
  ∀ close inside semicolon, Statement inside semicolon → KeepsAt p close inside semicolon

/-- Reading ends inside of the statement or just behind it. -/
def EndsAt (p : Parser α) (close : Position) (inside : List Token) (semicolon : Token) : Prop :=
  KeepsAt p close inside semicolon ∨
    ∃ value problems, ∀ behind,
      p.run close (inside ++ semicolon :: behind) = ⟨value, behind, problems⟩

def Ends (p : Parser α) : Prop :=
  ∀ close inside semicolon, Statement inside semicolon → EndsAt p close inside semicolon

theorem front_append (close : Position) (inside : List Token) (semicolon : Token)
    (behind : List Token) :
    front close (inside ++ semicolon :: behind) = front close (inside ++ [semicolon]) := by
  cases inside <;> rfl

namespace KeepsAt

theorem bind (hp : KeepsAt p close inside semicolon) (hs : Statement inside semicolon)
    (hf : ∀ a, Keeps (f a)) : KeepsAt (p >>= f) close inside semicolon := by
  obtain ⟨a, inside', problems, hsuffix, hrun⟩ := hp
  obtain ⟨b, inside'', problems', hsuffix', hrun'⟩ :=
    hf a close inside' semicolon (hs.suffix hsuffix)
  exact ⟨b, inside'', problems ++ problems', hsuffix'.trans hsuffix,
    fun behind => by rw [run_bind, hrun, hrun']⟩

theorem pure (a : α) : KeepsAt (Pure.pure a) close inside semicolon :=
  ⟨a, inside, [], List.suffix_refl inside, fun _ => rfl⟩

theorem congr (hq : KeepsAt q close inside semicolon)
    (h : ∀ behind, p.run close (inside ++ semicolon :: behind) =
      q.run close (inside ++ semicolon :: behind)) : KeepsAt p close inside semicolon := by
  obtain ⟨value, inside', problems, hsuffix, hrun⟩ := hq
  exact ⟨value, inside', problems, hsuffix, fun behind => (h behind).trans (hrun behind)⟩

theorem peek {f : Token → Parser β}
    (hf : KeepsAt (f (front close (inside ++ [semicolon]))) close inside semicolon) :
    KeepsAt (Parser.peek >>= f) close inside semicolon := by
  refine hf.congr fun behind => ?_
  rw [← front_append close inside semicolon behind]
  rfl

theorem peekSecond {f : Token → Parser β} {head : Token} {tail : List Token}
    (hf : KeepsAt (f (front close (tail ++ [semicolon]))) close (head :: tail) semicolon) :
    KeepsAt (Parser.peekSecond >>= f) close (head :: tail) semicolon := by
  refine hf.congr fun behind => ?_
  rw [← front_append close tail semicolon behind]
  rfl

theorem advance {f : Token → Parser β} {head : Token} {tail : List Token}
    (hf : KeepsAt (f head) close tail semicolon) :
    KeepsAt (Parser.advance >>= f) close (head :: tail) semicolon := by
  obtain ⟨b, inside', problems, hsuffix, hrun⟩ := hf
  exact ⟨b, inside', problems, hsuffix.trans (List.suffix_cons head tail), hrun⟩

/-- A token that is not the semicolon can be passed over. -/
theorem advance_of_front {f : Token → Parser β} (hs : Statement inside semicolon)
    (hfront : (front close (inside ++ [semicolon])).kind ≠ .symbol .semicolon)
    (hf : ∀ head, Keeps (f head)) : KeepsAt (Parser.advance >>= f) close inside semicolon := by
  obtain ⟨head, tail, rfl⟩ := hs.exists_cons close hfront
  exact .advance (hf head close tail semicolon (hs.suffix (List.suffix_cons head tail)))

end KeepsAt

namespace Keeps

theorem pure (a : α) : Keeps (Pure.pure a) := fun _ _ _ _ => .pure a

theorem bind (hp : Keeps p) (hf : ∀ a, Keeps (f a)) : Keeps (p >>= f) :=
  fun close inside semicolon hs => (hp close inside semicolon hs).bind hs hf

theorem ite {c : Prop} [Decidable c] (hp : Keeps p) (hq : Keeps q) :
    Keeps (if c then p else q) := by
  split
  · exact hp
  · exact hq

theorem peek {f : Token → Parser β} (hf : ∀ token, Keeps (f token)) : Keeps (Parser.peek >>= f) :=
  fun close inside semicolon hs => .peek (hf _ close inside semicolon hs)

theorem report (position : Position) (error : SyntaxError) : Keeps (Parser.report position error) :=
  fun _ inside _ _ => ⟨(), inside, [(position, error)], List.suffix_refl inside, fun _ => rfl⟩

theorem reportHere (wanted : Expectation) : Keeps (Parser.reportHere wanted) :=
  peek fun _ => report _ _

theorem eatKind {kind : TokenKind} (hkind : kind ≠ .symbol .semicolon) :
    Keeps (Parser.eatKind kind) := by
  intro close inside semicolon hs
  by_cases hfront : (front close (inside ++ [semicolon])).kind = kind
  · obtain ⟨head, tail, rfl⟩ := hs.exists_cons close (hfront ▸ hkind)
    refine ⟨true, tail, [], List.suffix_cons head tail, fun behind => ?_⟩
    rw [run_eatKind, front_append, if_pos hfront]
    rfl
  · refine ⟨false, inside, [], List.suffix_refl inside, fun behind => ?_⟩
    rw [run_eatKind, front_append, if_neg hfront]

theorem expect {mark : Mark} (hmark : mark.symbol ≠ .semicolon) : Keeps (Parser.expect mark) := by
  refine (eatKind (by simpa using hmark)).bind fun eaten => .ite (pure true) ?_
  exact (reportHere _).bind fun _ => pure false

theorem name? : Keeps Parser.name? := by
  intro close inside semicolon hs
  refine .peek ?_
  cases hname : (front close (inside ++ [semicolon])).kind.name? with
  | none => exact .pure none
  | some name =>
      exact .advance_of_front hs (Expression.ne_symbol_of_name hname .semicolon) fun _ => pure _

/-- What is passed over ends in front of the semicolon. -/
theorem skip {rule : Nat → TokenKind → Skip.Verdict}
    (hrule : ∀ depth, rule depth (.symbol .semicolon) = .stopBefore) :
    Keeps (Parser.skip rule) := by
  intro close inside semicolon hs
  have hpast (depth : Nat) (inside : List Token) : ∃ inside', inside' <:+ inside ∧ ∀ behind,
      Skip.past rule depth (inside ++ semicolon :: behind) = inside' ++ semicolon :: behind := by
    induction inside generalizing depth with
    | nil => exact ⟨[], List.suffix_refl [], fun behind => by simp [Skip.past, hs.ends, hrule]⟩
    | cons head tail ih =>
        cases hverdict : rule depth head.kind with
        | stopBefore =>
            exact ⟨head :: tail, List.suffix_refl _, fun behind => by simp [Skip.past, hverdict]⟩
        | stopBehind =>
            exact ⟨tail, List.suffix_cons head tail, fun behind => by simp [Skip.past, hverdict]⟩
        | goOn deeper =>
            obtain ⟨inside', hsuffix, hrun⟩ := ih deeper
            exact ⟨inside', hsuffix.trans (List.suffix_cons head tail),
              fun behind => by simp [Skip.past, hverdict, hrun]⟩
  obtain ⟨inside', hsuffix, hrun⟩ := hpast 0 inside
  exact ⟨(), inside', [], hsuffix, fun behind => by simp only [Parser.skip, hrun]⟩

/-- A repetition that looks at no more than one token behind the statement ends inside of it. -/
theorem sequence {goesOn : List Token → Bool}
    (hlook : ∀ inside semicolon behind, Statement inside semicolon →
      goesOn (inside ++ semicolon :: behind) = goesOn (inside ++ [semicolon]))
    (hshorter : ∀ close tokens, goesOn tokens = true →
      (p.run close tokens).rest.length < tokens.length)
    (hitem : ∀ close inside semicolon, Statement inside semicolon →
      goesOn (inside ++ [semicolon]) = true → KeepsAt p close inside semicolon) :
    Keeps (Parser.sequence goesOn p) := by
  intro close inside semicolon hs
  induction hlength : inside.length using Nat.strongRecOn generalizing inside with
  | ind n ih =>
      cases hgoes : goesOn (inside ++ [semicolon]) with
      | false =>
          refine ⟨[], inside, [], List.suffix_refl inside, fun behind => ?_⟩
          exact run_sequence_stop ((hlook _ _ behind hs).trans hgoes)
      | true =>
          obtain ⟨a, inside', problems, hsuffix, hrun⟩ := hitem close inside semicolon hs hgoes
          have hgoes' (behind : List Token) : goesOn (inside ++ semicolon :: behind) = true :=
            (hlook _ _ behind hs).trans hgoes
          have hlt (behind : List Token) := hshorter close _ (hgoes' behind)
          have hless : inside'.length < n := by
            have hlengths := hlt []
            rw [hrun] at hlengths
            simp only [List.length_append] at hlengths
            omega
          obtain ⟨as, inside'', problems', hsuffix', hrun'⟩ :=
            ih _ hless inside' (hs.suffix hsuffix) rfl
          refine ⟨a :: as, inside'', problems ++ problems', hsuffix'.trans hsuffix, ?_⟩
          intro behind
          rw [run_sequence_cons (hgoes' behind) (hlt behind)]
          simp only [hrun, hrun']

end Keeps

end Parser

/-! ### Expressions -/

namespace Expression

variable {a : Nat}

theorem keeps_tooDeep : Keeps tooDeep :=
  .peek fun _ => (Keeps.report _ _).bind fun _ => .skip fun _ => rfl

/-- No level of operators has the semicolon. -/
def Separated (levels : List (List (Symbol × BinaryOp))) : Prop :=
  ∀ level ∈ levels, operatorIn? level (.symbol .semicolon) = none

theorem separated_precedence : Separated precedence := by
  unfold Separated
  decide

/-- What is nested one level deeper is read inside of the statement. -/
structure KeepsBelow (a : Nat) : Prop where
  unary : Keeps (unary a)
  chain : ∀ level tighter left, Separated (level :: tighter) → Keeps (chain a level tighter left)
  access : ∀ object, Keeps (access a object)

theorem KeepsBelow.binary (h : KeepsBelow a) (levels : List (List (Symbol × BinaryOp)))
    (hlevels : Separated levels) : Keeps (binary a levels) := by
  induction levels with
  | nil =>
      rw [Expression.binary]
      exact h.unary
  | cons level tighter ih =>
      rw [Expression.binary]
      exact (ih fun l hl => hlevels l (.tail level hl)).bind fun left =>
        h.chain level tighter left hlevels

theorem KeepsBelow.whole (h : KeepsBelow a) : Keeps (whole a) := by
  rw [Expression.whole]
  exact h.binary precedence separated_precedence

theorem keeps_comma {item : Parser Expr} (h : Keeps item) :
    Keeps (Parser.sequence commaNext (do let _ ← advance; item)) := by
  refine .sequence (fun inside semicolon behind _ => by cases inside <;> rfl)
    (fun close tokens hcomma => ?_) (fun close inside semicolon hs hcomma => ?_)
  · obtain ⟨comma, tail, rfl, _⟩ := Grammar.exists_cons_of_commaNext hcomma
    exact Nat.lt_succ_of_le (item.rest_suffix close tail).length_le
  · cases inside with
    | nil => simp [commaNext, hs.ends] at hcomma
    | cons head tail =>
        exact .advance (h close tail semicolon (hs.suffix (List.suffix_cons head tail)))

theorem keeps_argumentsWith {item : Parser Expr} (h : Keeps item) {mark : Mark}
    (hmark : mark.symbol ≠ .semicolon) : Keeps (argumentsWith item mark) := by
  refine (Keeps.eatKind (by simp)).bind fun empty => .ite (.pure []) ?_
  refine Keeps.bind (h.bind fun first => (keeps_comma h).bind fun later => .pure _) fun items => ?_
  refine (Keeps.expect hmark).bind fun closed => .ite (.pure items) ?_
  exact (Keeps.skip fun _ => rfl).bind fun _ => .pure items

theorem keeps_primary (h : Keeps (whole a)) : Keeps (primary a) := by
  rw [primary]
  intro close inside semicolon hs
  refine .peek ?_
  cases hliteral : literal? (front close (inside ++ [semicolon])).kind with
  | some value =>
      refine .advance_of_front hs (fun hfront => ?_) fun _ => .pure _
      rw [hfront] at hliteral
      cases hliteral
  | none =>
      refine ((Keeps.eatKind (by simp)).bind fun group => .ite ?_ ?_) close inside semicolon hs
      · exact h.bind fun inner => (Keeps.expect (by simp [Mark.symbol])).bind fun _ => .pure inner
      · refine Keeps.name?.bind fun name => ?_
        cases name with
        | none => exact (Keeps.reportHere _).bind fun _ => .pure _
        | some name =>
            refine (Keeps.eatKind (by simp)).bind fun call => .ite ?_ (.pure _)
            exact (keeps_argumentsWith h (by simp [Mark.symbol])).bind fun _ => .pure _

theorem keepsBelow_zero : KeepsBelow 0 := by
  refine ⟨?_, fun level tighter left hlevels => ?_, fun object => ?_⟩
  · rw [unary]
    exact .peek fun token => keeps_tooDeep.bind fun _ => .pure _
  · rw [chain]
    refine .peek fun token => ?_
    cases operatorIn? level token.kind with
    | none => exact .pure left
    | some op => exact keeps_tooDeep.bind fun _ => .pure left
  · rw [access]
    refine .peek fun token => ?_
    split
    · exact keeps_tooDeep.bind fun _ => .pure object
    · exact keeps_tooDeep.bind fun _ => .pure object
    · exact .pure object

namespace KeepsBelow

theorem unary_succ (h : KeepsBelow a) : Keeps (Expression.unary (a + 1)) := by
  rw [Expression.unary, operand]
  intro close inside semicolon hs
  refine .peek ?_
  cases hprefix : prefixOp? (front close (inside ++ [semicolon])).kind with
  | some op =>
      refine .advance_of_front hs (fun hfront => ?_) fun _ => h.unary.bind fun _ => .pure _
      rw [hfront] at hprefix
      cases hprefix
  | none =>
      exact ((keeps_primary h.whole).bind fun object => h.access object) close inside semicolon hs

theorem chain_succ (h : KeepsBelow a) {level : List (Symbol × BinaryOp)}
    {tighter : List (List (Symbol × BinaryOp))} (hlevels : Separated (level :: tighter))
    (left : Expr) : Keeps (Expression.chain (a + 1) level tighter left) := by
  have hright : Keeps (Expression.binary a tighter) :=
    h.binary tighter fun l hl => hlevels l (.tail level hl)
  rw [Expression.chain]
  intro close inside semicolon hs
  refine .peek ?_
  cases hop : operatorIn? level (front close (inside ++ [semicolon])).kind with
  | none => exact .pure left
  | some op =>
      refine .advance_of_front hs (fun hfront => ?_) fun _ =>
        hright.bind fun right => h.chain level tighter _ hlevels
      rw [hfront, hlevels level (.head tighter)] at hop
      cases hop

theorem access_succ (h : KeepsBelow a) (object : Expr) :
    Keeps (Expression.access (a + 1) object) := by
  rw [Expression.access]
  intro close inside semicolon hs
  refine .peek ?_
  split
  next hdot =>
    refine .advance_of_front hs (by simp [hdot]) fun _ => Keeps.name?.bind fun name => ?_
    cases name with
    | some name => exact h.access _
    | none => exact (Keeps.reportHere _).bind fun _ => .pure object
  next hbracket =>
    refine .advance_of_front hs (by simp [hbracket]) fun _ => h.whole.bind fun start => ?_
    refine (Keeps.eatKind (by simp)).bind fun dots => .ite ?_ ?_
    · refine h.whole.bind fun stop => ?_
      exact (Keeps.expect (by simp [Mark.symbol])).bind fun _ => h.access _
    · exact (Keeps.expect (by simp [Mark.symbol])).bind fun _ => h.access _
  next => exact .pure object

end KeepsBelow

theorem keepsBelow (a : Nat) : KeepsBelow a := by
  induction a with
  | zero => exact keepsBelow_zero
  | succ a ih => exact ⟨ih.unary_succ, fun _ _ left h => ih.chain_succ h left, ih.access_succ⟩

theorem keeps_expression : Keeps expression := (keepsBelow nestingLimit).whole

end Expression

/-! ### Statements of a message -/

namespace Parser

variable {α β : Type} {p : Parser α} {f : α → Parser β}

theorem EndsAt.congr {q : Parser α} {close : Position} {inside : List Token} {semicolon : Token}
    (hq : EndsAt q close inside semicolon)
    (h : ∀ behind, p.run close (inside ++ semicolon :: behind) =
      q.run close (inside ++ semicolon :: behind)) : EndsAt p close inside semicolon := by
  rcases hq with hkeeps | ⟨value, problems, hrun⟩
  · exact Or.inl (hkeeps.congr h)
  · exact Or.inr ⟨value, problems, fun behind => (h behind).trans (hrun behind)⟩

theorem EndsAt.not_eat {symbol : Symbol} {f : Bool → Parser β} {close : Position}
    {inside : List Token} {semicolon : Token}
    (hfront : (front close (inside ++ [semicolon])).kind ≠ .symbol symbol)
    (hf : EndsAt (f false) close inside semicolon) :
    EndsAt (Parser.eat symbol >>= f) close inside semicolon := by
  refine hf.congr fun behind => ?_
  rw [run_bind, run_eat, front_append, if_neg hfront]
  rfl

theorem Keeps.ends (h : Keeps p) : Ends p :=
  fun close inside semicolon hs => Or.inl (h close inside semicolon hs)

namespace Ends

theorem bind (hp : Keeps p) (hf : ∀ a, Ends (f a)) : Ends (p >>= f) := by
  intro close inside semicolon hs
  obtain ⟨a, inside', problems, hsuffix, hrun⟩ := hp close inside semicolon hs
  rcases hf a close inside' semicolon (hs.suffix hsuffix) with
    ⟨b, inside'', problems', hsuffix', hrun'⟩ | ⟨b, problems', hrun'⟩
  · exact Or.inl ⟨b, inside'', problems ++ problems', hsuffix'.trans hsuffix,
      fun behind => by rw [run_bind, hrun, hrun']⟩
  · exact Or.inr ⟨b, problems ++ problems', fun behind => by rw [run_bind, hrun, hrun']⟩

theorem map {g : α → β} (hp : Ends p) : Ends (do let a ← p; return g a) := by
  intro close inside semicolon hs
  rcases hp close inside semicolon hs with
    ⟨a, inside', problems, hsuffix, hrun⟩ | ⟨a, problems, hrun⟩
  · exact Or.inl ⟨g a, inside', problems, hsuffix,
      fun behind => by rw [run_bind, hrun, run_pure, List.append_nil]⟩
  · exact Or.inr ⟨g a, problems, fun behind => by rw [run_bind, hrun, run_pure, List.append_nil]⟩

theorem ite {c : Prop} [Decidable c] {q : Parser α} (hp : Ends p) (hq : Ends q) :
    Ends (if c then p else q) := by
  split
  · exact hp
  · exact hq

theorem peek {f : Token → Parser β} (hf : ∀ token, Ends (f token)) :
    Ends (Parser.peek >>= f) := by
  intro close inside semicolon hs
  refine (hf (front close (inside ++ [semicolon])) close inside semicolon hs).congr fun behind => ?_
  rw [← front_append close inside semicolon behind]
  rfl

end Ends

end Parser

namespace Declaration

theorem statement_eq_goOn {kind : TokenKind} (h : kind.staysInStatement = true) :
    Skip.statement 0 kind = .goOn 0 := by
  obtain ⟨hheading, hsemicolon⟩ := TokenKind.staysInStatement_iff.mp h
  obtain ⟨hbody, hopen⟩ := TokenKind.staysInHeading_iff.mp hheading
  unfold TokenKind.staysInBody at hbody
  unfold Skip.statement
  split <;> simp_all

theorem ends_skip_statement : Ends (skip Skip.statement) := by
  intro close inside semicolon hs
  have hpast (behind : List Token) :
      Skip.past Skip.statement 0 (inside ++ semicolon :: behind) = behind := by
    induction inside with
    | nil => simp [Skip.past, hs.ends, Skip.statement]
    | cons head tail ih =>
        have hhead := statement_eq_goOn (hs.stays head (.head tail))
        simp only [List.cons_append, Skip.past, hhead]
        exact ih (hs.suffix (List.suffix_cons head tail))
  exact Or.inr ⟨(), [], fun behind => by simp only [skip, hpast]⟩

theorem keeps_modifiers : Keeps (Parser.sequence startsModifier modifier) := by
  refine .sequence (fun inside semicolon behind hs => ?_) (fun close tokens hstarts => ?_)
    (fun close inside semicolon hs hstarts => ?_)
  · match inside with
    | [] => cases behind <;> simp [startsModifier, hs.ends, TokenKind.name?]
    | [name] => rfl
    | name :: opening :: inside => rfl
  · exact (owesAt_modifier hstarts).length_lt (by decide)
  · match inside with
    | [] => simp [startsModifier] at hstarts
    | [name] => simp [startsModifier, hs.ends] at hstarts
    | name :: opening :: inside =>
        have hs' : Statement inside semicolon :=
          hs.suffix ((List.suffix_cons opening inside).trans (List.suffix_cons name _))
        refine .advance (.advance ?_)
        refine (Expression.keeps_argumentsWith Expression.keeps_expression ?_).bind
          (fun _ => .pure _) close inside semicolon hs'
        simp [Mark.symbol]

theorem keeps_fieldType (start : Position) : Keeps (fieldType start) := by
  intro close inside semicolon hs
  refine .peek ?_
  split
  · rename_i type htype
    exact .advance_of_front hs (by simp [htype]) fun _ => .pure _
  · rename_i word hword
    obtain ⟨head, tail, rfl⟩ := hs.exists_cons close (by simp [hword])
    refine .peekSecond ?_
    split
    · refine .advance_of_front hs ?_ fun _ => (Keeps.report _ _).bind fun _ => .pure _
      rw [hword]
      simp
    · exact ((Keeps.report _ _).bind fun _ => .pure _) close (head :: tail) semicolon hs
  · exact ((Keeps.reportHere _).bind fun _ => .pure _) close inside semicolon hs

theorem ends_fieldEnd (name : String) : Ends (fieldEnd name) := by
  intro close inside semicolon hs
  cases inside with
  | nil => exact Or.inr ⟨(), [], fun behind => by simp [fieldEnd, run_eat, front, hs.ends]⟩
  | cons head tail =>
      have hhead := (TokenKind.staysInStatement_iff.mp (hs.stays head (.head tail))).2
      refine .not_eat hhead (Ends.bind (.reportHere _) (fun _ => ?_) close _ semicolon hs)
      exact .peek fun token => .ite (Keeps.pure ()).ends ends_skip_statement

theorem ends_field : Ends field := by
  refine .peek fun token => .bind (.eatKind (by simp)) fun optional => ?_
  refine .bind (keeps_fieldType _) fun ⟨goesOn, type⟩ => .ite ?_ ends_skip_statement.map
  refine .bind .name? fun name => ?_
  cases name with
  | some name => exact .bind keeps_modifiers fun _ => (ends_fieldEnd name).map
  | none => exact .bind (.reportHere _) fun _ => ends_skip_statement.map

theorem ends_messageItem : Ends messageItem :=
  .bind (.eatKind (by simp)) fun _ => .ite (Keeps.pure none).ends ends_field

/-- Having read these tokens, a repetition is at the start of an item again, exactly behind them:
what it reads from there on is what it would read without them. -/
def Resumes {α : Type} (loop : Parser (List α)) (passed : List Token) : Prop :=
  ∀ close, ∃ items problems, ∀ behind,
    loop.run close (passed ++ behind) =
      let later := loop.run close behind
      ⟨items ++ later.value, later.rest, problems ++ later.problems⟩

/-- The fields of a message. -/
def statements : Parser (List (Option FieldDecl)) := Parser.sequence inBody messageItem

theorem inBody_statement {inside behind : List Token} {semicolon : Token}
    (hs : Statement inside semicolon) : inBody (inside ++ semicolon :: behind) = true := by
  cases inside with
  | nil => simp [inBody, hs.ends, TokenKind.staysInBody, TokenKind.startsDeclaration]
  | cons head tail =>
      have hheading := (TokenKind.staysInStatement_iff.mp (hs.stays head (.head tail))).1
      simpa [inBody] using (TokenKind.staysInHeading_iff.mp hheading).1

/-- Whatever stands in front of the semicolon of a statement, reading goes on just behind it. -/
theorem resumes_statement {inside : List Token} {semicolon : Token}
    (hs : Statement inside semicolon) : Resumes statements (inside ++ [semicolon]) := by
  intro close
  induction hlength : inside.length using Nat.strongRecOn generalizing inside with
  | ind n ih =>
      have hgoes (behind : List Token) : inBody (inside ++ semicolon :: behind) = true :=
        inBody_statement hs
      have hshorter (behind : List Token) :
          (messageItem.run close (inside ++ semicolon :: behind)).rest.length <
            (inside ++ semicolon :: behind).length :=
        (owesAt_messageItem (hgoes behind)).length_lt (by decide)
      have hturn (behind : List Token) := run_sequence_cons (hgoes behind) (hshorter behind)
      rcases ends_messageItem close inside semicolon hs with
        ⟨item, inside', problems, hsuffix, hrun⟩ | ⟨item, problems, hrun⟩
      · have hless : inside'.length < n := by
          have hlengths := hshorter []
          rw [hrun] at hlengths
          simp only [List.length_append] at hlengths
          omega
        obtain ⟨items, problems', hlater⟩ := ih _ hless (hs.suffix hsuffix) rfl
        refine ⟨item :: items, problems ++ problems', fun behind => ?_⟩
        have hlater := hlater behind
        rw [List.append_assoc, List.singleton_append, statements] at hlater ⊢
        rw [hturn]
        simp only [hrun, hlater, List.cons_append, List.append_assoc]
      · refine ⟨[item], problems, fun behind => ?_⟩
        rw [List.append_assoc, List.singleton_append, statements, hturn]
        simp only [hrun, List.singleton_append]

end Declaration

end WireSpec
