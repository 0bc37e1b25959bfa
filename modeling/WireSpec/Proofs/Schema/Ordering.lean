import WireSpec.Compile
import WireSpec.Proofs.Schema.Progress
import WireSpec.Proofs.Token.Ordering
/-!
# The order of syntactic problems

The parser reports problems at the token in front of it, at one it has just read, or at the beginning
of the field it reads, and none in between.  So no report is placed behind the token at which reading
goes on, and none in front of one before it.
-/

namespace WireSpec

namespace Parser

variable {α β : Type} {p q : Parser α} {f : α → Parser β} {close : Position}
  {tokens rest : List Token} {lo : Nat}

/-- The tokens stand in order, and in front of the end. -/
structure InOrder (close : Position) (tokens : List Token) : Prop where
  sorted : tokens.Pairwise fun t t' => t.position.offset ≤ t'.position.offset
  closed : ∀ t ∈ tokens, t.position.offset ≤ close.offset

/-- Where reading goes on. -/
def place (close : Position) (tokens : List Token) : Nat := (front close tokens).position.offset

namespace InOrder

theorem suffix (h : InOrder close tokens) (hsuffix : rest <:+ tokens) : InOrder close rest :=
  ⟨h.sorted.sublist hsuffix.sublist, fun t ht => h.closed t (hsuffix.subset ht)⟩

theorem place_le (h : InOrder close tokens) (hsuffix : rest <:+ tokens) :
    place close tokens ≤ place close rest := by
  obtain ⟨before, rfl⟩ := hsuffix
  cases before with
  | nil => exact Nat.le_refl _
  | cons head before =>
      cases rest with
      | nil => exact h.closed head (.head _)
      | cons t rest =>
          have hsorted := List.pairwise_cons.mp h.sorted
          exact hsorted.1 t (List.mem_append_right before (.head rest))

end InOrder

/-- The problems met at these tokens do not decrease, from a given place to where reading ends. -/
def OrderedAt (lo : Nat) (close : Position) (tokens : List Token) (p : Parser α) : Prop :=
  Rises lo ((p.run close tokens).problems.map (·.1.offset)) (place close (p.run close tokens).rest)

/-- Problems do not decrease, from where reading begins to where it ends. -/
def Ordered (p : Parser α) : Prop :=
  ∀ close tokens, InOrder close tokens → OrderedAt (place close tokens) close tokens p

namespace OrderedAt

theorem bind (hp : OrderedAt lo close tokens p) (ht : InOrder close tokens)
    (hf : ∀ a, Ordered (f a)) : OrderedAt lo close tokens (p >>= f) := by
  rw [OrderedAt, run_bind, List.map_append]
  exact hp.append (hf _ close _ (ht.suffix (p.rest_suffix close tokens)))

/-- What is read first meets no problem. -/
theorem behind (hp : (p.run close tokens).problems = [])
    (hf : OrderedAt lo close (p.run close tokens).rest (f (p.run close tokens).value)) :
    OrderedAt lo close tokens (p >>= f) := by
  rw [OrderedAt, run_bind, hp]
  exact hf

end OrderedAt

namespace Ordered

theorem pure (a : α) : Ordered (Pure.pure a) := fun _ _ _ => .nil (Nat.le_refl _)

theorem bind (hp : Ordered p) (hf : ∀ a, Ordered (f a)) : Ordered (p >>= f) :=
  fun close tokens ht => (hp close tokens ht).bind ht hf

theorem ite {c : Prop} [Decidable c] (hp : Ordered p) (hq : Ordered q) :
    Ordered (if c then p else q) := by
  split
  · exact hp
  · exact hq

/-- Reading that meets no problem. -/
theorem of_clean (h : ∀ close tokens, (p.run close tokens).problems = []) : Ordered p := by
  intro close tokens ht
  rw [OrderedAt, h close tokens]
  exact .nil (ht.place_le (p.rest_suffix close tokens))

theorem peek : Ordered Parser.peek := of_clean fun _ _ => rfl

theorem advance : Ordered Parser.advance := of_clean fun _ _ => rfl

theorem skip (rule : Nat → TokenKind → Skip.Verdict) : Ordered (Parser.skip rule) :=
  of_clean fun _ _ => rfl

theorem name? : Ordered Parser.name? := by
  refine peek.bind fun token => ?_
  split
  · exact advance.bind fun _ => pure _
  · exact pure none

theorem bindName {f : Option String → Parser β} (hnone : Ordered (f none))
    (hsome : ∀ name, Ordered (f (some name))) : Ordered (Parser.name? >>= f) := by
  refine name?.bind fun name => ?_
  cases name with
  | none => exact hnone
  | some name => exact hsome name

theorem atKind (kind : TokenKind) : Ordered (Parser.atKind kind) := peek.bind fun _ => pure _

theorem eatKind (kind : TokenKind) : Ordered (Parser.eatKind kind) :=
  (atKind kind).bind fun _ => ite (advance.bind fun _ => pure true) (pure false)

theorem reportHere (wanted : Expectation) : Ordered (Parser.reportHere wanted) :=
  fun _ _ _ => .cons (Nat.le_refl _) (.nil (Nat.le_refl _))

theorem expect (mark : Mark) : Ordered (Parser.expect mark) :=
  (eatKind _).bind fun _ => ite (pure true) ((reportHere _).bind fun _ => pure false)

theorem nameOr (wanted : Expectation) : Ordered (Parser.nameOr wanted) :=
  bindName ((reportHere wanted).bind fun _ => pure "") fun name => pure name

theorem sequence (goesOn : List Token → Bool) (hp : Ordered p) :
    Ordered (Parser.sequence goesOn p) := by
  intro close tokens
  change InOrder close tokens → Rises (place close tokens)
    ((sequenceRun goesOn p close tokens).problems.map (·.1.offset))
    (place close (sequenceRun goesOn p close tokens).rest)
  fun_induction sequenceRun goesOn p close tokens with
  | case1 => exact fun _ => .nil (Nat.le_refl _)
  | case2 token tail hgoes first later ih =>
      intro ht
      have hsuffix : first.rest <:+ token :: tail := p.rest_suffix close _
      have hfirst : Rises _ (first.problems.map (·.1.offset)) _ := hp close _ ht
      -- An item that took nothing is made to take a token, which is not placed before it.
      have hle : place close first.rest ≤ place close (remaining (token :: tail) first.rest) := by
        unfold remaining
        split
        · exact Nat.le_refl _
        · next hlength =>
            have hrest : first.rest = token :: tail :=
              hsuffix.eq_of_length_le (Nat.not_lt.mp hlength)
            rw [hrest]
            exact ht.place_le (List.tail_suffix _)
      rw [List.map_append]
      exact hfirst.append ((ih (ht.suffix (remaining_suffix hsuffix))).mono hle (Nat.le_refl _))
  | case3 => exact fun _ => .nil (Nat.le_refl _)

end Ordered

end Parser

open WireSpec.Parser

/-! ### Expressions -/

namespace Expression

variable {a : Nat} {item : Parser Expr}

theorem ordered_tooDeep : Ordered tooDeep :=
  fun _ tokens ht => .cons (Nat.le_refl _) (.nil (ht.place_le (Skip.past_suffix _ 0 tokens)))

theorem ordered_commaSeparated (h : Ordered item) : Ordered (commaSeparated item) := by
  refine h.bind fun first => Ordered.bind (.sequence _ ?_) fun later => .pure _
  exact Ordered.advance.bind fun _ => h

theorem ordered_argumentsWith (h : Ordered item) (mark : Mark) :
    Ordered (argumentsWith item mark) := by
  refine (Ordered.eatKind _).bind fun empty => .ite (.pure []) ?_
  refine (ordered_commaSeparated h).bind fun items => (Ordered.expect mark).bind fun closed => ?_
  exact .ite (.pure items) ((Ordered.skip _).bind fun _ => .pure items)

theorem ordered_primary (h : Ordered (whole a)) : Ordered (primary a) := by
  rw [primary]
  refine Ordered.peek.bind fun token => ?_
  split
  · exact Ordered.advance.bind fun _ => .pure _
  · refine (Ordered.eatKind _).bind fun group => .ite ?_ (.bindName ?_ fun name => ?_)
    · exact h.bind fun inner => (Ordered.expect _).bind fun _ => .pure inner
    · exact (Ordered.reportHere _).bind fun _ => .pure _
    · refine (Ordered.eatKind _).bind fun call => .ite ?_ (.pure _)
      exact (ordered_argumentsWith h _).bind fun _ => .pure _

/-- What is nested one level deeper is read in order. -/
structure OrderedBelow (a : Nat) : Prop where
  unary : Ordered (unary a)
  chain : ∀ level tighter left, Ordered (chain a level tighter left)
  access : ∀ object, Ordered (access a object)

namespace OrderedBelow

theorem binary (h : OrderedBelow a) (levels : List (List (Symbol × BinaryOp))) :
    Ordered (binary a levels) := by
  induction levels with
  | nil =>
      rw [Expression.binary]
      exact h.unary
  | cons level tighter ih =>
      rw [Expression.binary]
      exact ih.bind fun left => h.chain level tighter left

theorem whole (h : OrderedBelow a) : Ordered (whole a) := by
  rw [Expression.whole]
  exact h.binary precedence

theorem unary_succ (h : OrderedBelow a) : Ordered (Expression.unary (a + 1)) := by
  rw [Expression.unary, operand]
  refine Ordered.peek.bind fun token => ?_
  split
  · exact Ordered.advance.bind fun _ => h.unary.bind fun _ => .pure _
  · exact (ordered_primary h.whole).bind fun object => h.access object

theorem chain_succ (h : OrderedBelow a) (level : List (Symbol × BinaryOp))
    (tighter : List (List (Symbol × BinaryOp))) (left : Expr) :
    Ordered (Expression.chain (a + 1) level tighter left) := by
  rw [Expression.chain]
  refine Ordered.peek.bind fun token => ?_
  split
  · exact .pure left
  · exact Ordered.advance.bind fun _ => (h.binary tighter).bind fun right => h.chain _ _ _

theorem access_succ (h : OrderedBelow a) (object : Expr) :
    Ordered (Expression.access (a + 1) object) := by
  rw [Expression.access]
  refine Ordered.peek.bind fun token => ?_
  split
  · refine Ordered.advance.bind fun _ => .bindName ?_ fun name => h.access _
    exact (Ordered.reportHere _).bind fun _ => .pure object
  · refine Ordered.advance.bind fun _ => h.whole.bind fun start => ?_
    refine (Ordered.eatKind _).bind fun dots => .ite ?_ ?_
    · exact h.whole.bind fun stop => (Ordered.expect _).bind fun _ => h.access _
    · exact (Ordered.expect _).bind fun _ => h.access _
  · exact .pure object

end OrderedBelow

theorem orderedBelow_zero : OrderedBelow 0 := by
  refine ⟨?_, fun level tighter left => ?_, fun object => ?_⟩
  · rw [unary]
    exact Ordered.peek.bind fun token => ordered_tooDeep.bind fun _ => .pure _
  · rw [chain]
    refine Ordered.peek.bind fun token => ?_
    split
    · exact .pure left
    · exact ordered_tooDeep.bind fun _ => .pure left
  · rw [access]
    refine Ordered.peek.bind fun token => ?_
    split
    · exact ordered_tooDeep.bind fun _ => .pure object
    · exact ordered_tooDeep.bind fun _ => .pure object
    · exact .pure object

theorem orderedBelow (a : Nat) : OrderedBelow a := by
  induction a with
  | zero => exact orderedBelow_zero
  | succ a ih => exact ⟨ih.unary_succ, ih.chain_succ, ih.access_succ⟩

theorem ordered_expression : Ordered expression := (orderedBelow nestingLimit).whole

end Expression

/-! ### Declarations -/

namespace Declaration

theorem ordered_body {α : Type} {item : Parser (Option α)} (h : Ordered item) :
    Ordered (body item) :=
  (Ordered.sequence inBody h).bind fun _ => .pure _

/-- Tells what is missing, and passes on to where reading can go on. -/
theorem ordered_missing {α : Type} (wanted : Expectation) (rule : Nat → TokenKind → Skip.Verdict)
    (a : α) : Ordered (do reportHere wanted; skip rule; return a) :=
  (Ordered.reportHere wanted).bind fun _ => (Ordered.skip rule).bind fun _ => .pure a

theorem ordered_importAlias : Ordered importAlias := by
  refine (Ordered.eatKind _).bind fun _ => .ite (.bindName ?_ fun name => .pure _) (.pure none)
  exact (Ordered.reportHere _).bind fun _ => .pure none

theorem ordered_importDecl : Ordered importDecl := by
  refine Ordered.advance.bind fun _ => Ordered.peek.bind fun token => ?_
  split
  · refine Ordered.advance.bind fun _ => ordered_importAlias.bind fun localName => ?_
    refine (Ordered.expect _).bind fun closed => .ite (.pure _) ?_
    exact (Ordered.skip _).bind fun _ => .pure _
  · exact ordered_missing _ _ _

theorem ordered_enumMember : Ordered enumMember := by
  refine .bindName (ordered_missing _ _ _) fun name => ?_
  refine (Ordered.expect _).bind fun _ => .ite ?_ ((Ordered.skip _).bind fun _ => .pure none)
  refine Expression.ordered_expression.bind fun value => ?_
  refine (Ordered.eatKind _).bind fun comma => .ite (.pure _) ?_
  exact (Ordered.atKind _).bind fun closing => .ite (.pure _) (ordered_missing _ _ _)

theorem ordered_enumDecl : Ordered enumDecl := by
  refine Ordered.advance.bind fun token => (Ordered.nameOr _).bind fun name => ?_
  refine (Ordered.expect _).bind fun opened => .ite ?_ ((Ordered.skip _).bind fun _ => .pure none)
  refine (ordered_body ordered_enumMember).bind fun members => ?_
  exact (Ordered.expect _).bind fun _ => .pure _

theorem ordered_modifier : Ordered modifier := by
  refine Ordered.advance.bind fun token => Ordered.advance.bind fun _ => ?_
  exact (Expression.ordered_argumentsWith Expression.ordered_expression _).bind fun _ => .pure _

/-- A missing type is reported at the beginning of the field, which is not behind its type. -/
theorem orderedAt_fieldType {start close : Position} {tokens : List Token}
    (ht : InOrder close tokens) (hstart : start.offset ≤ place close tokens) :
    OrderedAt start.offset close tokens (fieldType start) := by
  have htail : place close tokens ≤ place close tokens.tail := ht.place_le (List.tail_suffix _)
  unfold OrderedAt
  cases hkind : (front close tokens).kind with
  | identifier word =>
      cases hname : (front close tokens.tail).kind.name?.isSome with
      | true =>
          rw [run_fieldType_unknown hkind hname]
          exact .cons hstart (.nil htail)
      | false =>
          rw [run_fieldType_missing hkind hname]
          exact .cons (Nat.le_refl _) (.nil hstart)
  | keyword word =>
      cases word with
      | type type =>
          rw [run_fieldType_type hkind]
          exact .nil (hstart.trans htail)
      | _ =>
          rw [run_fieldType_none (by simp [hkind]) (by simp [hkind])]
          exact .cons hstart (.nil (Nat.le_refl _))
  | _ =>
      rw [run_fieldType_none (by simp [hkind]) (by simp [hkind])]
      exact .cons hstart (.nil (Nat.le_refl _))

theorem ordered_fieldEnd (name : String) : Ordered (fieldEnd name) := by
  refine (Ordered.eatKind _).bind fun _ => .ite (.pure ()) ?_
  refine (Ordered.reportHere _).bind fun _ => Ordered.peek.bind fun token => ?_
  exact .ite (.pure ()) (Ordered.skip _)

theorem ordered_field : Ordered field := by
  intro close tokens ht
  have hsuffix := (eatKeyword .optional).rest_suffix close tokens
  have hclean : ((eatKeyword .optional).run close tokens).problems = [] := by
    rw [eatKeyword, run_eatKind]
    split <;> rfl
  have htype := orderedAt_fieldType (ht.suffix hsuffix) (ht.place_le hsuffix)
  refine .behind rfl (.behind hclean (htype.bind (ht.suffix hsuffix) fun ⟨goesOn, type⟩ => ?_))
  refine .ite (.bindName (ordered_missing _ _ _) fun name => ?_)
    ((Ordered.skip _).bind fun _ => .pure none)
  refine (Ordered.sequence _ ordered_modifier).bind fun modifiers => ?_
  exact (ordered_fieldEnd name).bind fun _ => .pure _

theorem ordered_messageItem : Ordered messageItem :=
  (Ordered.eatKind _).bind fun _ => .ite (.pure none) ordered_field

theorem ordered_baseName : Ordered baseName := by
  refine (Ordered.eatKind _).bind fun _ => .ite (.bindName ?_ fun name => .pure _) (.pure none)
  exact (Ordered.reportHere _).bind fun _ => .pure none

theorem ordered_messageDecl : Ordered messageDecl := by
  refine Ordered.advance.bind fun token => (Ordered.nameOr _).bind fun name => ?_
  refine ordered_baseName.bind fun base => (Ordered.expect _).bind fun opened => ?_
  refine .ite ?_ ((Ordered.skip _).bind fun _ => .pure none)
  refine (ordered_body ordered_messageItem).bind fun fields => ?_
  exact (Ordered.expect _).bind fun _ => .pure _

theorem ordered_action : Ordered action := by
  refine Ordered.peek.bind fun token => ?_
  split
  · refine Ordered.advance.bind fun _ => Expression.ordered_expression.bind fun value => ?_
    refine (Ordered.expect _).bind fun ended => .ite (.pure _) ?_
    exact (Ordered.skip _).bind fun _ => .pure _
  · exact ordered_missing _ _ _

theorem ordered_rule : Ordered rule := by
  have hskip : Ordered (do skip Skip.declaration; return (none : Option RuleDecl)) :=
    (Ordered.skip _).bind fun _ => .pure none
  refine Ordered.advance.bind fun token => (Ordered.expect _).bind fun _ => .ite ?_ hskip
  refine Expression.ordered_expression.bind fun condition => ?_
  refine (Ordered.expect _).bind fun _ => .ite ?_ hskip
  refine (Ordered.expect _).bind fun _ => .ite ?_ hskip
  refine (ordered_body ordered_action).bind fun actions => Ordered.peek.bind fun next => .ite ?_ ?_
  · exact (Ordered.reportHere _).bind fun _ => .pure none
  · exact (Ordered.expect _).bind fun _ => .pure _

theorem ordered_ruleItem : Ordered ruleItem :=
  (Ordered.atKind _).bind fun _ => .ite ordered_rule (ordered_missing _ _ _)

theorem ordered_parserSection : Ordered parserSection := by
  refine Ordered.advance.bind fun _ => (Ordered.expect _).bind fun opened => .ite ?_ ?_
  · refine (ordered_body ordered_ruleItem).bind fun rules => ?_
    exact (Ordered.expect _).bind fun _ => .pure rules
  · exact (Ordered.skip _).bind fun _ => .pure []

theorem ordered_metaValue : Ordered metaValue := by
  refine Ordered.advance.bind fun token => (Ordered.eatKind _).bind fun _ => ?_
  -- With an assignment sign or without one, the value is read in the same way.
  refine .ite ?_ ((Ordered.eatKind _).bind fun _ => ?_)
  all_goals
    refine Ordered.peek.bind fun token => ?_
    split
    · exact Ordered.advance.bind fun _ => (Ordered.eatKind _).bind fun _ => .pure _
    · exact ordered_missing _ _ _

theorem ordered_item : Ordered item := by
  refine Ordered.peek.bind fun token => ?_
  split
  · exact ordered_enumDecl.bind fun _ => .pure _
  · exact ordered_messageDecl.bind fun _ => .pure _
  · exact ordered_parserSection.bind fun _ => .pure _
  · exact ordered_importDecl.bind fun _ => .pure _
  · exact ordered_metaValue.bind fun _ => .pure _
  · exact ordered_metaValue.bind fun _ => .pure _
  · exact Ordered.advance.bind fun _ => .pure none
  · exact ordered_missing _ _ _

theorem ordered_protocol : Ordered protocol := by
  have hbody : Ordered (do
      let name ← nameOr .protocolName
      let _ ← expect .openProtocol
      let items ← Parser.sequence inProtocol item
      let _ ← expect .closeProtocol
      skip Skip.invalid
      unless ← atKind .endOfInput do reportHere .endOfDefinition
      return some ((items.filterMap id).foldl addItem (emptyProtocol name))) := by
    refine (Ordered.nameOr _).bind fun name => (Ordered.expect _).bind fun _ => ?_
    refine (Ordered.sequence _ ordered_item).bind fun items => (Ordered.expect _).bind fun _ => ?_
    refine (Ordered.skip _).bind fun _ => (Ordered.atKind _).bind fun ended => ?_
    exact .ite (.pure _) ((Ordered.reportHere _).bind fun _ => .pure _)
  refine (Ordered.skip _).bind fun _ => (Ordered.atKind _).bind fun ended => .ite ?_ ?_
  · exact (Ordered.reportHere _).bind fun _ => .pure none
  · refine (Ordered.eatKind _).bind fun _ => .ite hbody ?_
    exact (Ordered.reportHere _).bind fun _ => hbody

end Declaration

namespace Protocol

theorem sorted_parse {tokens : List Token}
    (h : tokens.Pairwise fun t t' => t.position.offset ≤ t'.position.offset) :
    (parse tokens).problems.Pairwise fun e e' => e.1.offset ≤ e'.1.offset := by
  have hclosed : ∀ t ∈ tokens,
      t.position.offset ≤ ((tokens.getLast?.map Token.position).getD Position.unknown).offset := by
    intro t ht
    rcases List.eq_nil_or_concat tokens with rfl | ⟨before, last, rfl⟩
    · cases ht
    · rw [List.concat_eq_append] at h ht ⊢
      rw [List.getLast?_concat]
      rcases List.mem_append.mp ht with ht | ht
      · exact (List.pairwise_append.mp h).2.2 t ht last (.head _)
      · obtain rfl := List.mem_singleton.mp ht
        exact Nat.le_refl _
  exact List.pairwise_map.mp (Declaration.ordered_protocol _ tokens ⟨h, hclosed⟩).sorted

theorem semantic_of_compile {p : Protocol} {o : Options} {ds : List Diagnostic}
    (h : p.compile o = .error ds) : ∀ d ∈ ds, ∃ e, d.problem = .semantic e := by
  unfold compile at h
  dsimp only at h
  split at h
  · cases h
  · cases h
    intro d hd
    obtain ⟨e, -, rfl⟩ := List.mem_map.mp hd
    exact ⟨e.2, rfl⟩

end Protocol

/-- A text that cannot be read is not compiled, and what both stages report is in their order; a text
without lexical problems may be read as a protocol. -/
theorem compile_cases (source : String) (o : Options) :
    (∃ syntactic : List (Position × SyntaxError),
      (syntactic.Pairwise fun e e' => e.1.offset ≤ e'.1.offset) ∧ compile source o =
        .error ((Scan.source source).problems.map .ofLexical ++ syntactic.map .ofSyntactic)) ∨
    (Scan.source source).problems = [] ∧ ∃ p : Protocol, compile source o = p.compile o := by
  have htokens : (Scan.source source).tokens.Pairwise fun t t' =>
      t.position.offset ≤ t'.position.offset :=
    (Scan.tiles_source source).ordered.imp fun hlt => Nat.le_of_lt hlt.1
  unfold compile
  dsimp only
  split
  · exact .inl ⟨[], .nil, by rw [List.map_nil, List.append_nil]⟩
  · split
    · next p hread hclean =>
        have hscan := List.map_eq_nil_iff.mp (List.append_eq_nil_iff.mp hclean).1
        exact .inr ⟨hscan, p, rfl⟩
    · exact .inl ⟨_, Protocol.sorted_parse htokens, rfl⟩

/-- If a text cannot be read, the lexical problems are told first, and then the syntactic ones in
order.  The lexical ones are in order too, except that an unknown escape sequence is told before the
problem that its literal is not closed; where no literal has both, all are in order. -/
theorem compile_ordered {source : String} {o : Options} {ds : List Diagnostic}
    (h : compile source o = .error ds) (hread : ∃ d ∈ ds, ∀ e, d.problem ≠ .semantic e) :
    ∃ syntactic : List (Position × SyntaxError),
      ds = (Scan.source source).problems.map .ofLexical ++ syntactic.map .ofSyntactic ∧
      (syntactic.Pairwise fun e e' => e.1.offset ≤ e'.1.offset) ∧
      ((Scan.source source).problems.Pairwise fun e e' => e.1.offset ≤ e'.1.offset ∨
        ∃ t ∈ (Scan.source source).tokens, t.BreaksOff ∧ Inverted t e e') ∧
      (((Scan.source source).problems.Pairwise fun e e' => e.1.offset ≤ e'.1.offset) ↔
        ∀ t ∈ (Scan.source source).tokens, ¬t.BreaksOff) := by
  have hscan := Scan.sequenced_source source
  rcases compile_cases source o with ⟨syntactic, hsorted, hcompile⟩ | ⟨-, p, hcompile⟩
  · obtain rfl : ds = _ := Except.error.inj (h.symm.trans hcompile)
    exact ⟨syntactic, rfl, hsorted, hscan.ordered, hscan.sorted_iff⟩
  · -- What is found wrong with a protocol is semantic.
    obtain ⟨d, hd, hnot⟩ := hread
    obtain ⟨e, he⟩ := Protocol.semantic_of_compile (hcompile.symm.trans h) d hd
    exact absurd he (hnot e)

/-- Where a protocol should begin stand a semicolon and a string that is not closed, with an unknown
escape sequence in it. -/
def unclosed : String := ";\"\\q"

theorem scan_unclosed : Scan.source unclosed =
    ⟨[⟨.symbol .semicolon, ";", .start⟩, ⟨.invalid, "\"\\q", ⟨1, 2, 1⟩⟩,
        ⟨.endOfInput, "", ⟨1, 5, 4⟩⟩],
      [(⟨1, 4, 3⟩, .unknownEscape 'q' .string), (⟨1, 2, 1⟩, .unterminatedString)]⟩ := by
  have hsign : Scan.source unclosed = Scan.withPiece .start (.token 0 (.symbol .semicolon)) [';']
      (Scan.textFrom ⟨1, 2, 1⟩ ['"', '\\', 'q']) :=
    Scan.textFrom_cons .start ';' ['"', '\\', 'q']
  have hstring : Scan.textFrom ⟨1, 2, 1⟩ ['"', '\\', 'q'] =
      Scan.withPiece ⟨1, 2, 1⟩ (Piece.string ['\\', 'q']) ['"', '\\', 'q']
        (Scan.textFrom ⟨1, 5, 4⟩ []) :=
    Scan.textFrom_cons ⟨1, 2, 1⟩ '"' ['\\', 'q']
  rw [hsign, hstring, Scan.textFrom_nil]
  rfl

theorem compile_unclosed : ∃ syntactic : List (Position × SyntaxError), compile unclosed {} =
    .error ((Scan.source unclosed).problems.map .ofLexical ++ syntactic.map .ofSyntactic) := by
  have hproblems : (Scan.source unclosed).problems ≠ [] := by
    rw [scan_unclosed]
    exact List.cons_ne_nil _ _
  obtain ⟨syntactic, -, hcompile⟩ := (compile_cases unclosed {}).resolve_right fun h =>
    hproblems h.1
  exact ⟨syntactic, hcompile⟩

theorem compile_ordered_unclosed :
    ∃ ds, compile unclosed {} = .error ds ∧ (∃ d ∈ ds, ∀ e, d.problem ≠ .semantic e) ∧
      ∃ syntactic : List (Position × SyntaxError),
        ds = (Scan.source unclosed).problems.map .ofLexical ++ syntactic.map .ofSyntactic ∧
        (syntactic.Pairwise fun e e' => e.1.offset ≤ e'.1.offset) ∧
        ((Scan.source unclosed).problems.Pairwise fun e e' => e.1.offset ≤ e'.1.offset ∨
          ∃ t ∈ (Scan.source unclosed).tokens, t.BreaksOff ∧ Inverted t e e') ∧
        (((Scan.source unclosed).problems.Pairwise fun e e' => e.1.offset ≤ e'.1.offset) ↔
          ∀ t ∈ (Scan.source unclosed).tokens, ¬t.BreaksOff) := by
  obtain ⟨syntactic, hcompile⟩ := compile_unclosed
  have hread : ∃ d ∈ (Scan.source unclosed).problems.map Diagnostic.ofLexical ++
      syntactic.map Diagnostic.ofSyntactic, ∀ e, d.problem ≠ .semantic e := by
    rw [scan_unclosed]
    exact ⟨_, .head _, by simp [Diagnostic.ofLexical]⟩
  exact ⟨_, hcompile, hread, compile_ordered hcompile hread⟩

/-- The escape sequence is told first, and stands behind the quote. -/
theorem not_sorted_unclosed :
    (∃ syntactic : List (Position × SyntaxError), compile unclosed {} =
      .error ((Scan.source unclosed).problems.map .ofLexical ++ syntactic.map .ofSyntactic)) ∧
    ¬(Scan.source unclosed).problems.Pairwise fun e e' => e.1.offset ≤ e'.1.offset := by
  refine ⟨compile_unclosed, fun hsorted => ?_⟩
  rw [scan_unclosed] at hsorted
  have hle : 3 ≤ 1 := (List.pairwise_cons.mp hsorted).1 _ (.head _)
  exact absurd hle (by decide)

end WireSpec
