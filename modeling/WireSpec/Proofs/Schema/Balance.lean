import WireSpec.Proofs.Schema.Counting
import WireSpec.Proofs.Schema.Soundness
/-!
# The counter of levels is balanced

Reading with a counter does what reading with an allowance does, if the allowance is what the
counter leaves of the limit.  A loop that has raised the counter in each turn goes on with it
raised, as the loop with an allowance goes on with a smaller one, and every way out of it lowers
the counter by as much.  So each reader ends at the depth at which it began, and lowering never
fails.
-/

namespace WireSpec

namespace Depth

/-- From the depth `base` on, the counter has risen within the limit, and by a level at least for
each activation. -/
structure Within (l : Counted.Limit) (base d : Depth) : Prop where
  counter_ge : base.counter ≤ d.counter
  counter_le : d.counter ≤ l.levels
  active_le : d.active + base.counter ≤ base.active + d.counter

/-- So many levels deeper. -/
def deeper (d : Depth) (n : Nat) : Depth := { d with counter := d.counter + n }

/-- Behind the check that a level is left. -/
def inside (d : Depth) : Depth := ⟨d.counter + 1, d.active + 1⟩

variable {l : Counted.Limit} {base mid d : Depth} {n : Nat}

theorem Within.trans (h : base.Within l mid) (h' : mid.Within l d) : base.Within l d := by
  have hge := h.counter_ge
  have hge' := h'.counter_ge
  have hactive := h.active_le
  have hactive' := h'.active_le
  exact ⟨Nat.le_trans hge hge', h'.counter_le, by omega⟩

theorem within_deeper (h : d.counter + n ≤ l.levels) : d.Within l (d.deeper n) :=
  ⟨Nat.le_add_right _ _, h, by simp only [deeper]; omega⟩

theorem within_inside (h : d.counter < l.levels) : d.Within l d.inside :=
  ⟨Nat.le_add_right _ _, h, by simp only [inside]; omega⟩

end Depth

namespace Parser

variable {α : Type}

theorem eq_of_run {p q : Parser α} (h : ∀ close tokens, p.run close tokens = q.run close tokens) :
    p = q := by
  cases p
  cases q
  congr
  funext close tokens
  exact h close tokens

theorem bind_pure (p : Parser α) : p >>= Pure.pure = p :=
  eq_of_run fun close tokens => by simp

end Parser

namespace Expression

open WireSpec.Parser

theorem commaNext_iff {close : Position} {tokens : List Token} :
    commaNext tokens = true ↔ (front close tokens).kind = .symbol .comma := by
  cases tokens with
  | nil => simp [commaNext, front]
  | cons head tail => simp [commaNext, front]

/-- Items with commas between them are read one by one. -/
theorem commaSeparated_eq (item : Parser Expr) : commaSeparated item = (do
    let first ← item
    if ← eat .comma then return first :: (← commaSeparated item)
    else return [first]) := by
  refine eq_of_run fun close tokens => ?_
  rw [run_commaSeparated]
  by_cases hcomma : commaNext (item.run close tokens).rest = true
  · simp [hcomma, run_eat, commaNext_iff.mp hcomma]
  · have hother : (front close (item.run close tokens).rest).kind ≠ .symbol .comma :=
      fun h => hcomma (commaNext_iff.mpr h)
    simp [hcomma, run_eat, hother]

end Expression

namespace Counted

open WireSpec.Parser

variable {α β : Type} {l : Limit} {base start mid stop d : Depth} {close : Position}
  {tokens : List Token} {c : Counted α} {p : Parser α}

/-! ### Steps of the counter -/

/-- A step from one depth to another, which nothing is read in. -/
def Moves (step : Counted Unit) (start stop : Depth) : Prop :=
  ∀ close tokens problems passed, step.run ⟨close, tokens, problems, start, passed⟩ =
    some ((), ⟨close, tokens, problems, stop, passed ++ [stop]⟩)

theorem moves_raise (n : Nat) : Moves raise (d.deeper n) (d.deeper (n + 1)) :=
  fun _ _ _ _ => rfl

theorem moves_lower (n : Nat) : Moves (lower n) (d.deeper n) d := by
  intro close tokens problems passed
  have hle : n ≤ (d.deeper n).counter := Nat.le_add_left _ _
  have hstop : { d.deeper n with counter := (d.deeper n).counter - n } = d := by
    simp only [Depth.deeper, Nat.add_sub_cancel]
  simp only [lower, StateT.run_bind, StateT.run_get, Option.pure_def, Option.bind_eq_bind,
    Option.bind_some, if_pos hle, hstop]
  rfl

theorem moves_enter : Moves enter (d.deeper 1) d.inside := fun _ _ _ _ => rfl

theorem moves_leave : Moves leave d.inside (d.deeper 1) := fun _ _ _ _ => rfl

/-! ### Reading -/

/-- At these tokens, counted reading that begins at one depth and ends at another gives what a
parser gives, and comes only through depths within the limit. -/
def FollowsAt (l : Limit) (base start stop : Depth) (close : Position) (tokens : List Token)
    (c : Counted α) (p : Parser α) : Prop :=
  ∀ problems passed, ∃ later,
    c.run ⟨close, tokens, problems, start, passed⟩ =
      some ((p.run close tokens).value, ⟨close, (p.run close tokens).rest,
        problems ++ (p.run close tokens).problems, stop, passed ++ later⟩) ∧
    ∀ d ∈ later, base.Within l d

def Follows (l : Limit) (base start stop : Depth) (c : Counted α) (p : Parser α) : Prop :=
  ∀ close tokens, FollowsAt l base start stop close tokens c p

theorem FollowsAt.bind {f : α → Counted β} {g : α → Parser β}
    (hc : FollowsAt l base start mid close tokens c p)
    (hf : FollowsAt l base mid stop close (p.run close tokens).rest (f (p.run close tokens).value)
      (g (p.run close tokens).value)) :
    FollowsAt l base start stop close tokens (c >>= f) (p >>= g) := by
  intro problems passed
  obtain ⟨first, hfirst, hwithin⟩ := hc problems passed
  obtain ⟨later, hlater, hwithin'⟩ := hf (problems ++ (p.run close tokens).problems)
    (passed ++ first)
  refine ⟨first ++ later, ?_, List.forall_mem_append.mpr ⟨hwithin, hwithin'⟩⟩
  rw [StateT.run_bind, hfirst]
  simp only [Option.bind_eq_bind, Option.bind_some, hlater, run_bind, List.append_assoc]

namespace Follows

theorem plain (p : Parser α) : Follows l base start start (Counted.plain p) p :=
  fun _ _ _ _ => ⟨[], by rw [List.append_nil]; rfl, by simp⟩

theorem pure (a : α) : Follows l base start start (Pure.pure a) (Pure.pure a) :=
  fun _ _ _ _ => ⟨[], by simp, by simp⟩

theorem bind {f : α → Counted β} {g : α → Parser β} (hc : Follows l base start mid c p)
    (hf : ∀ a, Follows l base mid stop (f a) (g a)) :
    Follows l base start stop (c >>= f) (p >>= g) :=
  fun close tokens => (hc close tokens).bind (hf _ close _)

theorem ite {b : Prop} [Decidable b] {c' : Counted α} {p' : Parser α}
    (h : Follows l base start stop c p) (h' : Follows l base start stop c' p') :
    Follows l base start stop (if b then c else c') (if b then p else p') := by
  split
  · exact h
  · exact h'

theorem peek {f : Token → Counted α} (h : ∀ token, Follows l base start stop (f token) p) :
    Follows l base start stop (Counted.plain Parser.peek >>= f) p := by
  intro close tokens problems passed
  have hrun : (Counted.plain Parser.peek).run ⟨close, tokens, problems, start, passed⟩ =
      some (front close tokens, ⟨close, tokens, problems, start, passed⟩) := by
    rw [run_plain, Parser.peek, List.append_nil]
  rw [StateT.run_bind, hrun]
  exact h (front close tokens) close tokens problems passed

/-- What begins deeper can be looked at from further up. -/
theorem mono {base' : Depth} (h : Follows l base start stop c p) (hbase : base'.Within l base) :
    Follows l base' start stop c p := by
  intro close tokens problems passed
  obtain ⟨later, hrun, hwithin⟩ := h close tokens problems passed
  exact ⟨later, hrun, fun d hd => hbase.trans (hwithin d hd)⟩

theorem step {s : Counted Unit} {f : Unit → Counted α} (hs : Moves s start mid)
    (hmid : base.Within l mid) (h : Follows l base mid stop (f ()) p) :
    Follows l base start stop (s >>= f) p := by
  intro close tokens problems passed
  obtain ⟨later, hrun, hwithin⟩ := h close tokens problems (passed ++ [mid])
  refine ⟨mid :: later, ?_, List.forall_mem_cons.mpr ⟨hmid, hwithin⟩⟩
  rw [StateT.run_bind, hs]
  rwa [List.append_assoc] at hrun

/-- The way out of a loop. -/
theorem settle {chained : Nat} (e : Expr) (hd : d.counter ≤ l.levels) :
    Follows l d (d.deeper chained) d (Counted.settle chained e) (Pure.pure e) :=
  step (moves_lower chained) (Depth.within_deeper (n := 0) hd) (pure e)

/-- An activation of `unary` around what is read one level deeper. -/
theorem activation {c : Counted Expr} {p : Parser Expr} (hd : d.counter < l.levels)
    (h : Follows l d.inside d.inside d.inside c p) :
    Follows l d d d (do raise; enter; let e ← c; leave; lower 1; return e) p := by
  refine step (moves_raise 0) (Depth.within_deeper hd) ?_
  refine step moves_enter (Depth.within_inside hd) ?_
  rw [← bind_pure p]
  refine (h.mono (Depth.within_inside hd)).bind fun e => ?_
  refine step moves_leave (Depth.within_deeper hd) ?_
  exact settle e (Nat.le_of_lt hd)

theorem ifTooDeep_of_lt {deep : Counted α} (hstart : start.counter < l.levels)
    (h : Follows l base start stop c p) :
    Follows l base start stop (l.tooDeep >>= fun b => if b then deep else c) p := by
  intro close tokens problems passed
  have hrun : l.tooDeep.run ⟨close, tokens, problems, start, passed⟩ =
      some (false, ⟨close, tokens, problems, start, passed⟩) := by
    simp [Limit.tooDeep, hstart]
  rw [StateT.run_bind, hrun]
  exact h close tokens problems passed

theorem ifTooDeep_of_eq {other : Counted α} (hstart : start.counter = l.levels)
    (h : Follows l base start stop c p) :
    Follows l base start stop (l.tooDeep >>= fun b => if b then c else other)
      (do Expression.tooDeep; p) := by
  intro close tokens problems passed
  obtain ⟨later, hrun, hwithin⟩ := h close (Expression.tooDeep.run close tokens).rest
    (problems ++ (Expression.tooDeep.run close tokens).problems) passed
  have hfull : l.tooDeep.run ⟨close, tokens, problems, start, passed⟩ =
      some (true, ⟨close, (Expression.tooDeep.run close tokens).rest,
        problems ++ (Expression.tooDeep.run close tokens).problems, start, passed⟩) := by
    simp [Limit.tooDeep, hstart, run_plain]
  refine ⟨later, ?_, hwithin⟩
  rw [StateT.run_bind, hfull, run_bind, ← List.append_assoc]
  exact hrun

end Follows

/-! ### Expressions -/

/-- With the allowance that the counter leaves, reading ends at the depth at which it begins. -/
def Balanced (l : Limit) (a : Nat) (c : Counted α) (p : Parser α) : Prop :=
  ∀ d : Depth, d.counter + a = l.levels → Follows l d d d c p

/-- What is read with an allowance is balanced.  The loops have raised the counter already, and what
they leave of the allowance is this one. -/
structure BalancedBelow (l : Limit) (a : Nat) : Prop where
  unary : Balanced l a l.unary (Expression.unary a)
  chain : ∀ level tighter left chained, ∀ d : Depth, d.counter + chained + a = l.levels →
    Follows l d (d.deeper chained) d (l.chain level tighter left chained)
      (Expression.chain a level tighter left)
  access : ∀ object chained, ∀ d : Depth, d.counter + chained + a = l.levels →
    Follows l d (d.deeper chained) d (l.access object chained) (Expression.access a object)

namespace BalancedBelow

variable {a : Nat}

theorem binary (h : BalancedBelow l a) (levels : List (List (Symbol × BinaryOp))) :
    Balanced l a (l.binary levels) (Expression.binary a levels) := by
  intro d hd
  induction levels with
  | nil =>
      rw [Limit.binary, Expression.binary]
      exact h.unary d hd
  | cons level tighter ih =>
      rw [Limit.binary, Expression.binary]
      exact ih.bind fun left => h.chain level tighter left 0 d hd

theorem whole (h : BalancedBelow l a) : Balanced l a l.whole (Expression.whole a) := by
  rw [Limit.whole, Expression.whole]
  exact h.binary Expression.precedence

theorem commaSeparated (h : BalancedBelow l a) :
    Balanced l a l.commaSeparated (Expression.commaSeparated (Expression.whole a)) := by
  intro d hd close tokens
  -- The counter does not change from item to item; what becomes less are the tokens.
  induction hn : tokens.length using Nat.strongRecOn generalizing tokens with
  | ind n ih =>
      rw [Limit.commaSeparated, Expression.commaSeparated_eq]
      refine (h.whole d hd close tokens).bind ?_
      have hlength := ((Expression.whole a).rest_suffix close tokens).length_le
      generalize (Expression.whole a).run close tokens = first at hlength ⊢
      refine (Follows.plain _ close _).bind ?_
      rw [run_eat]
      by_cases hcomma : (front close first.rest).kind = .symbol .comma
      · obtain ⟨comma, tail, hrest, -⟩ := Grammar.exists_cons_of_symbol hcomma
        have hshorter : tail.length < n := by
          rw [hrest, List.length_cons] at hlength
          omega
        rw [if_pos hcomma, hrest]
        exact (ih tail.length hshorter tail rfl).bind (Follows.pure _ close _)
      · rw [if_neg hcomma]
        exact Follows.pure _ close _

theorem arguments (h : BalancedBelow l a) (mark : Mark) : Balanced l a (l.arguments mark)
    (Expression.argumentsWith (Expression.whole a) mark) := by
  intro d hd
  rw [Limit.arguments, Expression.argumentsWith]
  refine (Follows.plain _).bind fun empty => .ite (.pure []) ?_
  refine (h.commaSeparated d hd).bind fun items => (Follows.plain _).bind fun closed => ?_
  exact .ite (.pure items) ((Follows.plain _).bind fun _ => .pure items)

theorem primary (h : BalancedBelow l a) : Balanced l a l.primary (Expression.primary a) := by
  intro d hd
  rw [Limit.primary, Expression.primary]
  refine (Follows.plain _).bind fun token => ?_
  cases Expression.literal? token.kind with
  | some value => exact (Follows.plain _).bind fun _ => .pure _
  | none =>
      refine (Follows.plain _).bind fun group => .ite ?_ ?_
      · exact (h.whole d hd).bind fun inner => (Follows.plain _).bind fun _ => .pure inner
      · refine (Follows.plain _).bind fun name => ?_
        cases name with
        | none => exact (Follows.plain _).bind fun _ => .pure _
        | some name =>
            refine (Follows.plain _).bind fun call => .ite ?_ (.pure _)
            exact (h.arguments _ d hd).bind fun _ => .pure _

theorem accessed (h : BalancedBelow l a) : Balanced l a l.accessed (do
    let object ← Expression.primary a
    Expression.access a object) := by
  intro d hd
  rw [Limit.accessed]
  exact (h.primary d hd).bind fun object => h.access object 0 d hd

theorem operand (h : BalancedBelow l a) : Balanced l a l.operand (Expression.operand a) := by
  intro d hd
  rw [Limit.operand, Expression.operand]
  refine (Follows.plain _).bind fun token => ?_
  cases Expression.prefixOp? token.kind with
  | some op => exact (Follows.plain _).bind fun _ => (h.unary d hd).bind fun _ => .pure _
  | none => exact h.accessed d hd

theorem unary_zero : Balanced l 0 l.unary (Expression.unary 0) := by
  intro d hd
  rw [Limit.unary, Expression.unary]
  exact (Follows.plain _).bind fun token => .ifTooDeep_of_eq hd (.pure _)

theorem unary_succ (h : BalancedBelow l a) :
    Balanced l (a + 1) l.unary (Expression.unary (a + 1)) := by
  intro d hd
  have hroom : d.counter < l.levels := by omega
  rw [Limit.unary, Expression.unary]
  refine .peek fun token => .ifTooDeep_of_lt hroom (.activation hroom ?_)
  exact h.operand d.inside (by simp only [Depth.inside]; omega)

theorem chain_zero (level : List (Symbol × BinaryOp))
    (tighter : List (List (Symbol × BinaryOp))) (left : Expr) (chained : Nat) {d : Depth}
    (hd : d.counter + chained = l.levels) :
    Follows l d (d.deeper chained) d (l.chain level tighter left chained)
      (Expression.chain 0 level tighter left) := by
  rw [Limit.chain, Expression.chain]
  refine (Follows.plain _).bind fun token => ?_
  have hsettle : Follows l d (d.deeper chained) d (Counted.settle chained left) (Pure.pure left) :=
    .settle left (by omega)
  cases Expression.operatorIn? level token.kind with
  | none => exact hsettle
  | some op => exact .ifTooDeep_of_eq hd hsettle

theorem chain_succ (h : BalancedBelow l a) (level : List (Symbol × BinaryOp))
    (tighter : List (List (Symbol × BinaryOp))) (left : Expr) (chained : Nat) {d : Depth}
    (hd : d.counter + chained + (a + 1) = l.levels) :
    Follows l d (d.deeper chained) d (l.chain level tighter left chained)
      (Expression.chain (a + 1) level tighter left) := by
  rw [Limit.chain, Expression.chain]
  refine (Follows.plain _).bind fun token => ?_
  cases Expression.operatorIn? level token.kind with
  | none => exact .settle left (by omega)
  | some op =>
      have hraised : d.Within l (d.deeper (chained + 1)) := Depth.within_deeper (by omega)
      refine .ifTooDeep_of_lt (by simp only [Depth.deeper]; omega) ?_
      refine .step (moves_raise chained) hraised ((Follows.plain _).bind fun _ => ?_)
      refine Follows.bind ((h.binary tighter _ ?_).mono hraised) fun right => ?_
      · simp only [Depth.deeper]
        omega
      · exact h.chain level tighter _ (chained + 1) d (by omega)

theorem access_zero (object : Expr) (chained : Nat) {d : Depth}
    (hd : d.counter + chained = l.levels) :
    Follows l d (d.deeper chained) d (l.access object chained)
      (Expression.access 0 object) := by
  have hsettle : Follows l d (d.deeper chained) d (Counted.settle chained object)
      (Pure.pure object) :=
    .settle object (by omega)
  rw [Limit.access, Expression.access]
  refine (Follows.plain _).bind fun token => ?_
  generalize token.kind = kind
  split
  · exact .ifTooDeep_of_eq hd hsettle
  · exact .ifTooDeep_of_eq hd hsettle
  · next hdot hbracket => simpa only using hsettle

theorem access_succ (h : BalancedBelow l a) (object : Expr) (chained : Nat) {d : Depth}
    (hd : d.counter + chained + (a + 1) = l.levels) :
    Follows l d (d.deeper chained) d (l.access object chained)
      (Expression.access (a + 1) object) := by
  rw [Limit.access, Expression.access]
  refine (Follows.plain _).bind fun token => ?_
  have hroom : (d.deeper chained).counter < l.levels := by
    simp only [Depth.deeper]
    omega
  have hraised : d.Within l (d.deeper (chained + 1)) := Depth.within_deeper (by omega)
  generalize token.kind = kind
  split
  · refine .ifTooDeep_of_lt hroom (.step (moves_raise chained) hraised ?_)
    refine (Follows.plain _).bind fun _ => (Follows.plain _).bind fun name => ?_
    cases name with
    | some name => exact h.access _ (chained + 1) d (by omega)
    | none => exact (Follows.plain _).bind fun _ => .settle object (by omega)
  · have hwhole : Follows l d (d.deeper (chained + 1)) (d.deeper (chained + 1)) l.whole
        (Expression.whole a) :=
      (h.whole (d.deeper (chained + 1)) (by simp only [Depth.deeper]; omega)).mono hraised
    refine .ifTooDeep_of_lt hroom (.step (moves_raise chained) hraised ?_)
    refine (Follows.plain _).bind fun _ => hwhole.bind fun first => ?_
    refine (Follows.plain _).bind fun dots => .ite ?_ ?_
    · refine hwhole.bind fun last => (Follows.plain _).bind fun _ => ?_
      exact h.access _ (chained + 1) d (by omega)
    · exact (Follows.plain _).bind fun _ => h.access _ (chained + 1) d (by omega)
  · next hdot hbracket => simpa only using Follows.settle object (by omega)

end BalancedBelow

theorem balancedBelow (a : Nat) : BalancedBelow l a := by
  induction a with
  | zero =>
      exact ⟨BalancedBelow.unary_zero,
        fun level tighter left chained _ => BalancedBelow.chain_zero level tighter left chained,
        fun object chained _ => BalancedBelow.access_zero object chained⟩
  | succ a ih =>
      exact ⟨ih.unary_succ,
        fun level tighter left chained _ => ih.chain_succ level tighter left chained,
        fun object chained _ => ih.access_succ object chained⟩

/-- Beginning with the counter at `k`, in front of any tokens and whatever has been read before,
counted reading has a result, which is that of a parser, with the counter at `k` again.  On the way
the counter is neither below `k` nor above the limit, and no more activations are added to those at
the beginning than there were levels left. -/
def Restores (l : Limit) (k : Nat) (c : Counted Expr) (p : Parser Expr) : Prop :=
  ∀ close tokens problems active passed, ∃ later,
    c.run ⟨close, tokens, problems, ⟨k, active⟩, passed⟩ =
      some ((p.run close tokens).value, ⟨close, (p.run close tokens).rest,
        problems ++ (p.run close tokens).problems, ⟨k, active⟩, passed ++ later⟩) ∧
    ∀ d ∈ later, k ≤ d.counter ∧ d.counter ≤ l.levels ∧
      d.active ≤ active + (l.levels - k)

theorem Balanced.restores {k : Nat} {c : Counted Expr} {p : Parser Expr}
    (h : Balanced l (l.levels - k) c p) (hk : k ≤ l.levels) : Restores l k c p := by
  intro close tokens problems active passed
  obtain ⟨later, hrun, hwithin⟩ :=
    h ⟨k, active⟩ (Nat.add_sub_cancel' hk) close tokens problems passed
  refine ⟨later, hrun, fun d hd => ?_⟩
  obtain ⟨hge, hle, hactive⟩ := hwithin d hd
  exact ⟨hge, hle, by dsimp only at hactive; omega⟩

/-- From any depth within the limit, all readers of expressions return with the counter as it was,
whatever they find, and keep it within the limit meanwhile. -/
theorem counter_restored {k : Nat} (hk : k ≤ nestingLimit) :
    Restores .nesting k Limit.nesting.whole (Expression.whole (nestingLimit - k)) ∧
    (∀ level, Restores .nesting k (Limit.nesting.binary (Expression.precedence.drop level))
      (Expression.binary (nestingLimit - k) (Expression.precedence.drop level))) ∧
    Restores .nesting k Limit.nesting.unary (Expression.unary (nestingLimit - k)) ∧
    Restores .nesting k Limit.nesting.accessed (do
      let object ← Expression.primary (nestingLimit - k)
      Expression.access (nestingLimit - k) object) := by
  have hbelow : BalancedBelow .nesting (nestingLimit - k) := balancedBelow (nestingLimit - k)
  exact ⟨hbelow.whole.restores hk, fun level => (hbelow.binary _).restores hk,
    hbelow.unary.restores hk, hbelow.accessed.restores hk⟩

/-- `a[-1` -/
def unclosedIndex : List Token :=
  Grammar.tokensOf [.identifier "a", .symbol .bracketOpen, .symbol .minus, .integer 1]

/-- With two levels left, the index `-1` is nested too deeply, and its bracket is not closed. -/
theorem counter_restored_unclosed : 98 ≤ nestingLimit ∧ ∃ e later,
    Limit.nesting.whole.run ⟨.start, unclosedIndex, [], ⟨98, 98⟩, []⟩ =
      some (e, ⟨.start, [], [(.unknown, .nestedTooDeeply),
        (.start, .unexpected (.mark .closeIndex) .endOfInput)], ⟨98, 98⟩, later⟩) ∧
    ∀ d ∈ later, 98 ≤ d.counter ∧ d.counter ≤ nestingLimit ∧ d.active ≤ 98 + 2 := by
  have hlimit : 98 ≤ nestingLimit := by decide
  obtain ⟨later, hrun, hlater⟩ := (counter_restored hlimit).1 .start unclosedIndex [] 98 []
  have hrest : ((Expression.whole (nestingLimit - 98)).run .start unclosedIndex).rest = [] := by
    decide +kernel
  have hproblems : ((Expression.whole (nestingLimit - 98)).run .start unclosedIndex).problems =
      [(.unknown, .nestedTooDeeply), (.start, .unexpected (.mark .closeIndex) .endOfInput)] := by
    decide +kernel
  rw [hrest, hproblems] at hrun
  exact ⟨hlimit, _, later, hrun, hlater⟩

end Counted

end WireSpec
