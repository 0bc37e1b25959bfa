import WireSpec.Proofs.Schema.Declared
import WireSpec.Proofs.Schema.Printing
/-!
# What is printed is read back

Reading undoes printing: of the tokens of a protocol every parser takes those that were printed for
the part it reads, whatever stands behind them, and unless an expression is nested too deeply it
reads that part again.
-/

namespace WireSpec

open Grammar WireSpec.Parser

namespace Parser

variable {α β : Type} {p : Parser α} {f : α → Parser β} {before behind further : List TokenKind}
  {es es' : List Expr} {P : α → Prop} {Q : β → Prop}

/-- From tokens of the kinds `before` a parser goes on to tokens of the kinds `behind` and reads the
expressions `es` on the way.  All that can be wrong is that one of them is nested too deeply, and if
that is not so, what it reads has a property. -/
def Takes (p : Parser α) (before behind : List TokenKind) (es : List Expr) (P : α → Prop) : Prop :=
  ∀ close tokens, tokens.map (·.kind) = before →
    (p.run close tokens).rest.map (·.kind) = behind ∧
    OnlyTooDeep (p.run close tokens).problems ∧
    ((p.run close tokens).problems = [] ↔ ∀ e ∈ es, e.Shallow) ∧
    ((p.run close tokens).problems = [] → P (p.run close tokens).value)

/-- What is read does not depend on the positions of the tokens, and there is no problem. -/
def Exactly (p : Parser α) (before behind : List TokenKind) (a : α) : Prop :=
  ∀ close tokens, tokens.map (·.kind) = before →
    ∃ rest, rest.map (·.kind) = behind ∧ p.run close tokens = ⟨a, rest, []⟩

namespace Takes

theorem mono {P' : α → Prop} (h : Takes p before behind es P) (hP : ∀ a, P a → P' a) :
    Takes p before behind es P' := by
  intro close tokens htokens
  obtain ⟨hrest, honly, hclean, hvalue⟩ := h close tokens htokens
  exact ⟨hrest, honly, hclean, fun hnil => hP _ (hvalue hnil)⟩

theorem pure {a : α} (h : P a) : Takes (Pure.pure a) before before [] P := by
  intro close tokens htokens
  exact ⟨htokens, by simp [OnlyTooDeep], by simp, fun _ => h⟩

/-- Reading goes on in the same way also where an expression is nested too deeply. -/
theorem bind (hp : Takes p before behind es P)
    (hf : ∀ a, Takes (f a) behind further es' (fun b => P a → Q b)) :
    Takes (p >>= f) before further (es ++ es') Q := by
  intro close tokens htokens
  obtain ⟨hrest, honly, hclean, hvalue⟩ := hp close tokens htokens
  obtain ⟨hrest', honly', hclean', hvalue'⟩ := hf (p.run close tokens).value close _ hrest
  refine ⟨hrest', honly.append honly', ?_, fun hnil => ?_⟩
  · rw [List.forall_mem_append, ← hclean, ← hclean']
    exact List.append_eq_nil_iff
  · obtain ⟨hfirst, hsecond⟩ := List.append_eq_nil_iff.mp hnil
    exact hvalue' hsecond (hvalue hfirst)

theorem bindLast (hp : Takes p before behind es P)
    (hf : ∀ a, Takes (f a) behind further [] (fun b => P a → Q b)) :
    Takes (p >>= f) before further es Q := by
  rw [← List.append_nil es]
  exact hp.bind hf

theorem exactly {a : α} (hp : Exactly p before behind a)
    (hf : Takes (f a) behind further es Q) : Takes (p >>= f) before further es Q := by
  intro close tokens htokens
  obtain ⟨rest, hrest, hrun⟩ := hp close tokens htokens
  rw [run_bind, hrun]
  exact hf close rest hrest

theorem advance {kind : TokenKind} {f : Token → Parser β}
    (hf : ∀ token, token.kind = kind → Takes (f token) before behind es Q) :
    Takes (Parser.advance >>= f) (kind :: before) behind es Q := by
  intro close tokens htokens
  obtain ⟨token, rest, rfl, hkind, hrest⟩ := List.map_eq_cons_iff.mp htokens
  exact hf token hkind close rest hrest

theorem peek {kind : TokenKind} {f : Token → Parser β}
    (hf : ∀ token, token.kind = kind → Takes (f token) (kind :: before) behind es Q) :
    Takes (Parser.peek >>= f) (kind :: before) behind es Q := by
  intro close tokens htokens
  obtain ⟨token, rest, rfl, hkind, hrest⟩ := List.map_eq_cons_iff.mp htokens
  exact hf token hkind close (token :: rest) htokens

end Takes

namespace Exactly

theorem takes {a : α} (h : Exactly p before behind a) :
    Takes p before behind [] (· = a) := by
  intro close tokens htokens
  obtain ⟨rest, hrest, hrun⟩ := h close tokens htokens
  rw [hrun]
  exact ⟨hrest, by simp [OnlyTooDeep], by simp, fun _ => rfl⟩

theorem pure (a : α) : Exactly (Pure.pure a) behind behind a :=
  fun _ tokens htokens => ⟨tokens, htokens, rfl⟩

theorem bind {a : α} {b : β} (hp : Exactly p before behind a)
    (hf : Exactly (f a) behind further b) : Exactly (p >>= f) before further b := by
  intro close tokens htokens
  obtain ⟨rest, hrest, hrun⟩ := hp close tokens htokens
  obtain ⟨rest', hrest', hrun'⟩ := hf close rest hrest
  exact ⟨rest', hrest', by rw [run_bind, hrun, hrun']; rfl⟩

theorem atKind (kind : TokenKind) :
    Exactly (Parser.atKind kind) (kind :: behind) (kind :: behind) true := by
  intro close tokens htokens
  obtain ⟨token, rest, rfl, hkind, hrest⟩ := List.map_eq_cons_iff.mp htokens
  have hfront : (front close (token :: rest)).kind = kind := hkind
  exact ⟨_, htokens, by rw [run_atKind, hfront, beq_self_eq_true]⟩

theorem not_atKind {kind other : TokenKind} (h : other ≠ kind) :
    Exactly (Parser.atKind kind) (other :: behind) (other :: behind) false := by
  intro close tokens htokens
  obtain ⟨token, rest, rfl, hkind, hrest⟩ := List.map_eq_cons_iff.mp htokens
  have hfront : (front close (token :: rest)).kind = other := hkind
  exact ⟨_, htokens, by rw [run_atKind, hfront, beq_eq_false_iff_ne.mpr h]⟩

theorem eatKind (kind : TokenKind) :
    Exactly (Parser.eatKind kind) (kind :: behind) behind true := by
  intro close tokens htokens
  obtain ⟨token, rest, rfl, hkind, hrest⟩ := List.map_eq_cons_iff.mp htokens
  have hfront : (front close (token :: rest)).kind = kind := hkind
  exact ⟨rest, hrest, by rw [run_eatKind, if_pos hfront, List.tail_cons]⟩

theorem not_eatKind {kind other : TokenKind} (h : other ≠ kind) :
    Exactly (Parser.eatKind kind) (other :: behind) (other :: behind) false := by
  intro close tokens htokens
  obtain ⟨token, rest, rfl, hkind, hrest⟩ := List.map_eq_cons_iff.mp htokens
  have hfront : (front close (token :: rest)).kind ≠ kind := by rwa [front, hkind]
  exact ⟨_, htokens, by rw [run_eatKind, if_neg hfront]⟩

theorem expect (mark : Mark) :
    Exactly (Parser.expect mark) (.symbol mark.symbol :: behind) behind true := by
  intro close tokens htokens
  obtain ⟨token, rest, rfl, hkind, hrest⟩ := List.map_eq_cons_iff.mp htokens
  exact ⟨rest, hrest, run_expect_ok hkind⟩

theorem name? (text : String) :
    Exactly Parser.name? (nameKind text :: behind) behind (some text) := by
  intro close tokens htokens
  obtain ⟨token, rest, rfl, hkind, hrest⟩ := List.map_eq_cons_iff.mp htokens
  have hname : (front close (token :: rest)).kind.name? = some text := by
    rw [front, hkind, name?_nameKind]
  exact ⟨rest, hrest, by rw [run_name?, hname, List.tail_cons]⟩

/-- There is nothing to pass over in front of what the rule stops at. -/
theorem skip {rule : Nat → TokenKind → Skip.Verdict} {kind : TokenKind}
    (h : rule 0 kind = .stopBefore) :
    Exactly (Parser.skip rule) (kind :: behind) (kind :: behind) () := by
  intro close tokens htokens
  obtain ⟨token, rest, rfl, hkind, hrest⟩ := List.map_eq_cons_iff.mp htokens
  refine ⟨_, htokens, ?_⟩
  simp [Parser.skip, Skip.past, hkind, h]

theorem nameOr (text : String) (wanted : Expectation) :
    Exactly (Parser.nameOr wanted) (nameKind text :: behind) behind text := by
  intro close tokens htokens
  obtain ⟨rest, hrest, hrun⟩ := name? text close tokens htokens
  exact ⟨rest, hrest, by rw [Parser.nameOr, run_bind, hrun]; rfl⟩

end Exactly

/-! ### Repetition -/

section Sequence

variable {goesOn : List Token → Bool} {X : Type} {word : X → List TokenKind}
  {expressions : X → List Expr} {V : Type} {g : X → V} {h : α → V}

theorem Takes.sequence_nil
    (hstop : ∀ tokens, tokens.map (·.kind) = before → goesOn tokens = false) :
    Takes (sequence goesOn p) before before [] (· = []) :=
  Exactly.takes fun _ tokens htokens => ⟨tokens, htokens, run_sequence_stop (hstop tokens htokens)⟩

theorem Takes.sequence_cons {Q : List α → Prop}
    (hgoes : ∀ tokens, tokens.map (·.kind) = before → goesOn tokens = true)
    (hshorter : behind.length < before.length) (hitem : Takes p before behind es P)
    (hlater : Takes (sequence goesOn p) behind further es' Q) :
    Takes (sequence goesOn p) before further (es ++ es')
      fun items => ∃ a later, items = a :: later ∧ P a ∧ Q later := by
  intro close tokens htokens
  obtain ⟨hrest, honly, hclean, hvalue⟩ := hitem close tokens htokens
  obtain ⟨hrest', honly', hclean', hvalue'⟩ := hlater close _ hrest
  have hlength : (p.run close tokens).rest.length < tokens.length := by
    have hlengths := congrArg List.length hrest
    have hlengths' := congrArg List.length htokens
    simp only [List.length_map] at hlengths hlengths'
    omega
  rw [run_sequence_cons (hgoes tokens htokens) hlength]
  refine ⟨hrest', honly.append honly', ?_, fun hnil => ?_⟩
  · rw [List.forall_mem_append, ← hclean, ← hclean']
    exact List.append_eq_nil_iff
  · obtain ⟨hfirst, hsecond⟩ := List.append_eq_nil_iff.mp hnil
    exact ⟨_, _, rfl, hvalue hfirst, hvalue' hsecond⟩

/-- Printed items are read one behind the other, if each of them can stand in front of the next. -/
theorem Takes.sequence (xs : List X) (follow : List TokenKind → Prop)
    (hitem : ∀ x ∈ xs, ∀ behind, follow behind →
      Takes p (word x ++ behind) behind (expressions x) (fun a => h a = g x))
    (hgoes : ∀ x ∈ xs, ∀ behind tokens, tokens.map (·.kind) = word x ++ behind →
      goesOn tokens = true)
    (hword : ∀ x ∈ xs, word x ≠ [])
    (hnext : ∀ x ∈ xs, ∀ behind, follow (word x ++ behind)) (hlast : follow behind)
    (hstop : ∀ tokens, tokens.map (·.kind) = behind → goesOn tokens = false) :
    Takes (Parser.sequence goesOn p) (xs.flatMap word ++ behind) behind (xs.flatMap expressions)
      (fun items => items.map h = xs.map g) := by
  induction xs with
  | nil => exact (sequence_nil hstop).mono fun items hitems => by rw [hitems]; rfl
  | cons x xs ih =>
      have hlater := ih (fun y hy => hitem y (.tail x hy)) (fun y hy => hgoes y (.tail x hy))
        (fun y hy => hword y (.tail x hy)) (fun y hy => hnext y (.tail x hy))
      have hfollow : follow (xs.flatMap word ++ behind) := by
        cases xs with
        | nil => exact hlast
        | cons y ys =>
            rw [List.flatMap_cons, List.append_assoc]
            exact hnext y (by simp) _
      have hlength : 0 < (word x).length := List.length_pos_iff.mpr (hword x (.head xs))
      rw [List.flatMap_cons, List.flatMap_cons, List.append_assoc]
      refine (sequence_cons (hgoes x (.head xs) _) ?_ (hitem x (.head xs) _ hfollow) hlater).mono ?_
      · simp only [List.length_append]
        omega
      · rintro _ ⟨a, later, rfl, ha, hvalue⟩
        rw [List.map_cons, List.map_cons, ha, hvalue]

end Sequence

end Parser

/-! ### Expressions -/

namespace Expression

variable {behind : List TokenKind}

/-- Tokens of these kinds end an expression in front of them. -/
def Closes (kinds : List TokenKind) : Prop := ∀ kind ∈ kinds.head?, kind ∈ closers

theorem Closes.closed {tokens : List Token} (h : Closes behind)
    (htokens : tokens.map (·.kind) = behind) : Closed tokens := by
  intro t ht
  refine h t.kind ?_
  rw [← htokens, List.head?_map]
  exact Option.mem_map_of_mem _ ht

/-- Whether an expression is shallow does not depend on the phrase that it is read as. -/
theorem shallow_iff {e : Expr} {t : Phrase .whole} (hword : t.word = e.word) :
    t.need ≤ nestingLimit ↔ e.Shallow := by
  refine ⟨fun hneed => ⟨t, hword, hneed⟩, ?_⟩
  rintro ⟨t', hword', hneed'⟩
  have hclosed : Closed [] := by simp [Closed]
  have hkinds : (tokensOf e.word).map (·.kind) = e.word := map_kind_tokensOf e.word
  have hclean := (reads_expression .start t' (hkinds.trans hword'.symm) hclosed).clean.mpr hneed'
  exact (reads_expression .start t (hkinds.trans hword.symm) hclosed).clean.mp hclean

theorem takes_expression (e : Expr) (hbehind : Closes behind) :
    Takes expression (e.word ++ behind) behind [e] (fun v => v.bare = e.bare) := by
  intro close tokens htokens
  obtain ⟨w, rest, rfl, hw, hrest⟩ := List.map_eq_append_iff.mp htokens
  obtain ⟨t, hword, hvalue⟩ := e.exists_phrase
  have hclosed := hbehind.closed hrest
  have hreads := reads_expression close t (hw.trans hword.symm) hclosed
  refine ⟨?_, hreads.only, ?_, fun hnil => (hreads.value hnil).trans hvalue⟩
  · rw [hreads.rest_eq hclosed, hrest]
  · rw [hreads.clean, shallow_iff hword]
    simp

theorem takes_commaSeparated (e : Expr) (args : List Expr) (behind : List TokenKind) :
    Takes (commaSeparated expression)
      (listed ((e :: args).map Expr.word) ++ .symbol .parenClose :: behind)
      (.symbol .parenClose :: behind) (e :: args)
      (fun vs => vs.map Expr.bare = (e :: args).map Expr.bare) := by
  have hcomma (e : Expr) (behind : List TokenKind) :
      Closes ((.symbol .comma :: e.word) ++ behind) := by simp [Closes, closers]
  have hparen : Closes (.symbol .parenClose :: behind) := by simp [Closes, closers]
  have hlater : Takes (Parser.sequence commaNext (do let _ ← advance; expression))
      (args.flatMap (.symbol .comma :: Expr.word ·) ++ .symbol .parenClose :: behind)
      (.symbol .parenClose :: behind) (args.flatMap ([·]))
      (fun vs => vs.map Expr.bare = args.map Expr.bare) := by
    refine Takes.sequence args Closes (fun e _ behind hbehind => ?_) ?_ (by simp)
      (fun e _ => hcomma e) hparen ?_
    · exact .advance fun _ _ => takes_expression e hbehind
    · rintro e _ behind (_ | ⟨token, rest⟩) htokens
      · cases htokens
      · simp [commaNext, (List.cons.inj htokens).1]
    · rintro (_ | ⟨token, rest⟩) htokens
      · cases htokens
      · simp [commaNext, (List.cons.inj htokens).1]
  have hcloses : Closes (args.flatMap (.symbol .comma :: Expr.word ·) ++
      .symbol .parenClose :: behind) := by
    cases args <;> simp [Closes, closers]
  have hfirst := takes_expression e hcloses
  rw [List.flatMap_singleton'] at hlater
  rw [List.map_cons, listed_cons, List.flatMap_map, List.append_assoc]
  refine hfirst.bind fun first => hlater.bindLast fun later => .pure fun hvalue hfirst => ?_
  rw [List.map_cons, hvalue, hfirst, List.map_cons]

theorem takes_arguments (args : List Expr) (mark : Mark) (hmark : mark.symbol = .parenClose) :
    Takes (arguments mark) (listed (args.map Expr.word) ++ .symbol .parenClose :: behind) behind
      args (fun vs => vs.map Expr.bare = args.map Expr.bare) := by
  cases args with
  | nil => exact .exactly (.eatKind _) (.pure rfl)
  | cons e args =>
      have hfront : ∃ kind rest, listed ((e :: args).map Expr.word) = kind :: rest ∧
          kind ≠ .symbol .parenClose := by
        obtain ⟨t, hword, _⟩ := e.exists_phrase
        obtain ⟨kind, rest, ht, hclose, _⟩ := t.exists_word_eq_cons
        exact ⟨kind, _, by rw [List.map_cons, listed_cons, ← hword, ht]; rfl, hclose⟩
      obtain ⟨kind, rest, hlisted, hclose⟩ := hfront
      have hitems := takes_commaSeparated e args behind
      rw [hlisted] at hitems ⊢
      refine .exactly (.not_eatKind hclose) ?_
      have hexpect : Exactly (expect mark) (.symbol .parenClose :: behind) behind true :=
        hmark ▸ .expect mark
      exact hitems.bindLast fun items => .exactly hexpect (.pure id)

end Expression

/-! ### Declarations -/

namespace Declaration

variable {behind : List TokenKind}

theorem staysInBody_nameKind (text : String) : (nameKind text).staysInBody = true := by
  unfold nameKind
  cases Name.ofText text <;> rfl

theorem inBody_eq {kind : TokenKind} {tokens : List Token}
    (h : tokens.map (·.kind) = kind :: behind) : inBody tokens = kind.staysInBody := by
  obtain ⟨token, rest, rfl, hkind, _⟩ := List.map_eq_cons_iff.mp h
  simp [inBody, hkind]

theorem map_filterMap_id {α X V : Type} {items : List (Option α)} {xs : List X} {g : X → V}
    {h : α → V} (heq : items.map (Option.map h) = xs.map (fun x => some (g x))) :
    (items.filterMap id).map h = xs.map g := by
  have hfiltered := congrArg (List.filterMap id) heq
  simpa [List.filterMap_map, List.map_filterMap, Function.comp_def] using hfiltered

/-- Only items that could be read are in a body. -/
theorem takes_body_of_sequence {α X V : Type} {item : Parser (Option α)} {xs : List X}
    {before : List TokenKind} {es : List Expr} {g : X → V} {h : α → V}
    (hitems : Takes (Parser.sequence inBody item) before behind es
      (fun items => items.map (Option.map h) = xs.map (fun x => some (g x)))) :
    Takes (body item) before behind es (fun items => items.map h = xs.map g) :=
  hitems.bindLast fun _ => .pure map_filterMap_id

/-- Items that were printed one behind the other are read as the body that they are printed for. -/
theorem takes_body {α X V : Type} {item : Parser (Option α)} {word : X → List TokenKind}
    {expressions : X → List Expr} {g : X → V} {h : α → V} (xs : List X)
    (hitem : ∀ x behind,
      Takes item (word x ++ behind) behind (expressions x) (fun a => a.map h = some (g x)))
    (hstart : ∀ x, ∃ kind rest, word x = kind :: rest ∧ kind.staysInBody = true) :
    Takes (body item) (xs.flatMap word ++ .symbol .braceClose :: behind)
      (.symbol .braceClose :: behind) (xs.flatMap expressions)
      (fun items => items.map h = xs.map g) := by
  refine takes_body_of_sequence (Takes.sequence xs (fun _ => True)
    (fun x _ behind _ => hitem x behind) ?_ ?_ (fun _ _ _ => trivial) trivial
      fun tokens htokens => inBody_eq htokens)
  · intro x _ behind tokens htokens
    obtain ⟨kind, rest, hword, hstays⟩ := hstart x
    rw [hword] at htokens
    exact (inBody_eq htokens).trans hstays
  · intro x _
    obtain ⟨kind, rest, hword, _⟩ := hstart x
    simp [hword]

/-! ### Imports and enums -/

theorem exactly_importAlias (localName : Option String) :
    Exactly importAlias (announced .asAlias localName ++ .symbol .semicolon :: behind)
      (.symbol .semicolon :: behind) localName := by
  cases localName with
  | none => exact .bind (.not_eatKind (by simp)) (.pure none)
  | some name => exact .bind (.eatKind _) (.bind (.name? name) (.pure (some name)))

theorem takes_importDecl (i : ImportDecl) :
    Takes importDecl (i.word ++ behind) behind []
      (fun v => v.map ImportDecl.bare = some i.bare) := by
  simp only [ImportDecl.word, List.cons_append, List.append_assoc, List.nil_append]
  refine .advance fun token _ => .peek fun path hpath => ?_
  rw [hpath]
  refine .advance fun _ _ => .exactly (exactly_importAlias i.localName) ?_
  exact .exactly (.expect .endImport) (.pure rfl)

/-- A member takes the comma behind it. -/
theorem takes_enumMember_comma (m : String × Expr) :
    Takes enumMember (EnumDecl.memberWord m ++ .symbol .comma :: behind) behind [m.2]
      (fun v => v.map (·.map id Expr.bare) = some (m.map id Expr.bare)) := by
  refine .exactly (.name? m.1) (.exactly (.expect (.assignMember m.1)) ?_)
  have hcloses : Expression.Closes (.symbol .comma :: behind) := by
    simp [Expression.Closes, closers]
  refine (Expression.takes_expression m.2 hcloses).bindLast fun value => ?_
  exact .exactly (.eatKind _) (.pure fun hvalue => by simp [hvalue, Prod.map])

theorem takes_enumMember_last (m : String × Expr) :
    Takes enumMember (EnumDecl.memberWord m ++ .symbol .braceClose :: behind)
      (.symbol .braceClose :: behind) [m.2]
      (fun v => v.map (·.map id Expr.bare) = some (m.map id Expr.bare)) := by
  refine .exactly (.name? m.1) (.exactly (.expect (.assignMember m.1)) ?_)
  have hcloses : Expression.Closes (.symbol .braceClose :: behind) := by
    simp [Expression.Closes, closers]
  refine (Expression.takes_expression m.2 hcloses).bindLast fun value => ?_
  refine .exactly (.not_eatKind (by simp)) (.exactly (.atKind _) ?_)
  exact .pure fun hvalue => by simp [hvalue, Prod.map]

theorem takes_members (members : List (String × Expr)) :
    Takes (Parser.sequence inBody enumMember)
      (listed (members.map EnumDecl.memberWord) ++ .symbol .braceClose :: behind)
      (.symbol .braceClose :: behind) (members.map (·.2))
      (fun vs => vs.map (Option.map (·.map id Expr.bare)) =
        members.map (fun m => some (m.map id Expr.bare))) := by
  induction members with
  | nil =>
      refine (Takes.sequence_nil fun tokens htokens => inBody_eq htokens).mono fun vs hvs => ?_
      rw [hvs]
      rfl
  | cons m members ih =>
      have hgoes (behind : List TokenKind) : ∀ tokens,
          tokens.map (·.kind) = EnumDecl.memberWord m ++ behind → inBody tokens = true :=
        fun tokens htokens => (inBody_eq htokens).trans (staysInBody_nameKind m.1)
      cases members with
      | nil =>
          have hlast := Takes.sequence_cons (hgoes (.symbol .braceClose :: behind))
            (by simp [EnumDecl.memberWord]; omega) (takes_enumMember_last m) ih
          rw [List.map_singleton, listed_singleton]
          refine hlast.mono ?_
          rintro _ ⟨a, later, rfl, ha, hlater⟩
          rw [List.map_cons, ha, hlater]
          rfl
      | cons next members =>
          have hcomma :=
            Takes.sequence_cons (hgoes _) (by simp; omega) (takes_enumMember_comma m) ih
          rw [List.map_cons, List.map_cons, listed_cons_cons, List.append_assoc, List.cons_append,
            ← List.map_cons]
          refine hcomma.mono ?_
          rintro _ ⟨a, later, rfl, ha, hlater⟩
          rw [List.map_cons, ha, hlater]
          rfl

theorem takes_enumDecl (e : EnumDecl) :
    Takes enumDecl (e.word ++ behind) behind (e.members.map (·.2))
      (fun v => v.map EnumDecl.bare = some e.bare) := by
  simp only [EnumDecl.word, braced, List.cons_append, List.append_assoc, List.nil_append]
  refine .advance fun token _ => .exactly (.nameOr e.name _) (.exactly (.expect .openEnum) ?_)
  refine (takes_body_of_sequence (takes_members e.members)).bindLast fun members => ?_
  refine .exactly (.expect .closeEnum) (.pure fun hmembers => ?_)
  simp [EnumDecl.bare, hmembers]

/-! ### Messages -/

theorem startsModifier_eq {name : String} {tokens : List Token}
    (h : tokens.map (·.kind) = nameKind name :: .symbol .parenOpen :: behind) :
    startsModifier tokens = true := by
  obtain ⟨token, _, rfl, hname, h⟩ := List.map_eq_cons_iff.mp h
  obtain ⟨opening, _, rfl, hopening, _⟩ := List.map_eq_cons_iff.mp h
  simp [startsModifier, hname, name?_nameKind, hopening]

theorem not_startsModifier {tokens : List Token}
    (h : tokens.map (·.kind) = .symbol .semicolon :: behind) : startsModifier tokens = false := by
  obtain ⟨token, rest, rfl, hkind, _⟩ := List.map_eq_cons_iff.mp h
  cases rest <;> simp [startsModifier, hkind, TokenKind.name?]

theorem takes_modifier (m : Modifier) :
    Takes modifier (m.word ++ behind) behind m.arguments (fun v => v.bare = m.bare) := by
  simp only [Modifier.word, List.cons_append, List.append_assoc, List.nil_append]
  refine .advance fun token htoken => .advance fun _ _ => ?_
  refine (Expression.takes_arguments m.arguments _ rfl).bindLast fun args => .pure fun hargs => ?_
  simp [Modifier.bare, htoken, name?_nameKind, hargs]

theorem takes_modifiers (modifiers : List Modifier) :
    Takes (Parser.sequence startsModifier modifier)
      (modifiers.flatMap Modifier.word ++ .symbol .semicolon :: behind)
      (.symbol .semicolon :: behind) (modifiers.flatMap (·.arguments))
      (fun vs => vs.map Modifier.bare = modifiers.map Modifier.bare) :=
  .sequence modifiers (fun _ => True) (fun m _ _ _ => takes_modifier m)
    (fun _ _ _ _ htokens => startsModifier_eq htokens) (by simp [Modifier.word])
    (fun _ _ _ => trivial) trivial fun _ htokens => not_startsModifier htokens

theorem exactly_fieldType (start : Position) (type : ScalarType) :
    Exactly (fieldType start) (.keyword (.type type) :: behind) behind (true, some type) := by
  intro close tokens htokens
  obtain ⟨token, rest, rfl, hkind, hrest⟩ := List.map_eq_cons_iff.mp htokens
  refine ⟨rest, hrest, ?_⟩
  simp [fieldType, peek, front, hkind, advance]

theorem exactly_fieldEnd (name : String) :
    Exactly (fieldEnd name) (.symbol .semicolon :: behind) behind () :=
  .bind (.eatKind _) (.pure ())

theorem takes_field (f : FieldDecl) (behind : List TokenKind) :
    Takes field (f.word ++ behind) behind f.expressions
      (fun v => v.map FieldDecl.bare = some f.bare) := by
  have hoptional : Exactly (eatKeyword .optional) (f.word ++ behind)
      (.keyword (.type f.type) :: nameKind f.name ::
        (f.modifiers.flatMap Modifier.word ++ .symbol .semicolon :: behind)) f.optional := by
    simp only [FieldDecl.word, List.cons_append, List.append_assoc, List.nil_append]
    cases f.optional with
    | true => exact .eatKind _
    | false => exact .not_eatKind (by simp)
  have hstart : ∃ kind rest, f.word ++ behind = kind :: rest := by
    unfold FieldDecl.word
    cases f.optional <;> exact ⟨_, _, rfl⟩
  obtain ⟨kind, rest, hword⟩ := hstart
  rw [hword] at hoptional ⊢
  refine .peek fun token _ => .exactly hoptional (.exactly (exactly_fieldType _ f.type) ?_)
  refine .exactly (.name? f.name) ((takes_modifiers f.modifiers).bindLast fun modifiers => ?_)
  refine .exactly (exactly_fieldEnd f.name) (.pure fun hmodifiers => ?_)
  simp [FieldDecl.bare, hmodifiers]

theorem takes_messageItem (f : FieldDecl) :
    Takes messageItem (f.word ++ behind) behind f.expressions
      (fun v => v.map FieldDecl.bare = some f.bare) := by
  obtain ⟨kind, rest, hword, hkind⟩ :
      ∃ kind rest, f.word ++ behind = kind :: rest ∧ kind ≠ .invalid := by
    unfold FieldDecl.word
    cases f.optional <;> exact ⟨_, _, rfl, by simp⟩
  have hfield := takes_field f behind
  rw [hword] at hfield ⊢
  exact .exactly (.not_eatKind hkind) hfield

theorem exactly_baseName (base : Option String) :
    Exactly baseName (announced .extendsBase base ++ .symbol .braceOpen :: behind)
      (.symbol .braceOpen :: behind) base := by
  cases base with
  | none => exact .bind (.not_eatKind (by simp)) (.pure none)
  | some name => exact .bind (.eatKind _) (.bind (.name? name) (.pure (some name)))

theorem takes_messageDecl (m : MessageDecl) :
    Takes messageDecl (m.word ++ behind) behind (m.fields.flatMap FieldDecl.expressions)
      (fun v => v.map MessageDecl.bare = some m.bare) := by
  simp only [MessageDecl.word, braced, List.cons_append, List.append_assoc, List.nil_append]
  refine .advance fun token _ => .exactly (.nameOr m.name _) ?_
  refine .exactly (exactly_baseName m.base) (.exactly (.expect .openMessage) ?_)
  refine (takes_body m.fields (fun f _ => takes_messageItem f) ?_).bindLast fun fields => ?_
  · intro f
    unfold FieldDecl.word
    cases f.optional <;> exact ⟨_, _, rfl, rfl⟩
  · refine .exactly (.expect .closeMessage) (.pure fun hfields => ?_)
    simp [MessageDecl.bare, hfields]

/-! ### Rules -/

theorem takes_action (a : ActionKind × Expr) :
    Takes action (RuleDecl.actionWord a ++ behind) behind [a.2]
      (fun v => v.map (·.map id Expr.bare) = some (a.map id Expr.bare)) := by
  have hkind : actionKind? (.keyword a.1.keyword) = some a.1 := by cases a.1 <;> rfl
  have hcloses : Expression.Closes (.symbol .semicolon :: behind) := by
    simp [Expression.Closes, closers]
  simp only [RuleDecl.actionWord, List.cons_append, List.append_assoc, List.nil_append]
  refine .peek fun token htoken => ?_
  rw [htoken, hkind]
  refine .advance fun _ _ => (Expression.takes_expression a.2 hcloses).bindLast fun value => ?_
  exact .exactly (.expect .endAction) (.pure fun hvalue => by simp [hvalue, Prod.map])

theorem takes_rule (r : RuleDecl) :
    Takes rule (r.word ++ behind) behind r.expressions
      (fun v => v.map RuleDecl.bare = some r.bare) := by
  simp only [RuleDecl.word, braced, List.cons_append, List.append_assoc, List.nil_append]
  refine .advance fun token _ => .exactly (.expect .openCondition) ?_
  have hcloses (behind : List TokenKind) : Expression.Closes (.symbol .parenClose :: behind) := by
    simp [Expression.Closes, closers]
  change Takes _ _ _ ([r.condition] ++ r.actions.map (·.2)) _
  refine (Expression.takes_expression r.condition (hcloses _)).bind fun condition => ?_
  refine .exactly (.expect .closeCondition) (.exactly (.expect .openRule) ?_)
  rw [List.map_eq_flatMap]
  refine (takes_body r.actions (fun a _ => takes_action a) ?_).bindLast fun actions => ?_
  · exact fun a => ⟨_, _, rfl, by cases a.1 <;> rfl⟩
  · refine .peek fun token htoken => ?_
    rw [htoken]
    refine .exactly (.expect .closeRule) (.pure fun hactions hcondition => ?_)
    simp [RuleDecl.bare, hactions, hcondition]

theorem takes_ruleItem (r : RuleDecl) :
    Takes ruleItem (r.word ++ behind) behind r.expressions
      (fun v => v.map RuleDecl.bare = some r.bare) :=
  .exactly (.atKind _) (takes_rule r)

theorem takes_parserSection (rules : List RuleDecl) :
    Takes parserSection (Item.word (.parserSection rules) ++ behind) behind
      (rules.flatMap RuleDecl.expressions)
      (fun v => v.map RuleDecl.bare = rules.map RuleDecl.bare) := by
  simp only [Item.word, braced, List.cons_append, List.append_assoc, List.nil_append]
  refine .advance fun token _ => .exactly (.expect .openParser) ?_
  refine (takes_body rules (fun r _ => takes_ruleItem r) ?_).bindLast fun rules => ?_
  · exact fun r => ⟨_, _, rfl, rfl⟩
  · exact .exactly (.expect .closeParser) (.pure id)

/-! ### Protocols -/

theorem takes_metaValue (key text : String) :
    Takes metaValue (Item.metaWord key (some text) ++ behind) behind [] (· = some text) := by
  refine .advance fun token _ => .exactly (.not_eatKind (by simp)) ?_
  refine .exactly (.not_eatKind (by simp)) (.peek fun value hvalue => ?_)
  have htext : metaText? value = some text := by rw [metaText?, hvalue]
  rw [htext]
  exact .advance fun _ _ => .exactly (.eatKind _) (.pure rfl)

theorem takes_itemOf {α : Type} {p : Parser (Option α)} {make : α → Item} {bare : α → α} {a : α}
    {before : List TokenKind} {es : List Expr} (hmake : ∀ a, (make a).bare = make (bare a))
    (h : Takes p before behind es (fun v => v.map bare = some (bare a))) :
    Takes (do return (← p).map make) before behind es
      (fun v => v.map Item.bare = some (make a).bare) := by
  refine h.bindLast fun v => .pure fun hv => ?_
  have hmapped := congrArg (Option.map make) hv
  simpa [hmake, Function.comp_def] using hmapped

theorem takes_item {i : Item} (hversion : i ≠ .version none)
    (hdescription : i ≠ .description none) :
    Takes item (i.word ++ behind) behind i.expressions
      (fun v => v.map Item.bare = some i.bare) := by
  cases i with
  | version text =>
      cases text with
      | none => exact absurd rfl hversion
      | some text =>
          refine .peek fun token htoken => ?_
          rw [htoken]
          exact (takes_metaValue _ text).bindLast fun v => .pure fun hv => by rw [hv]; rfl
  | description text =>
      cases text with
      | none => exact absurd rfl hdescription
      | some text =>
          refine .peek fun token htoken => ?_
          rw [htoken]
          exact (takes_metaValue _ text).bindLast fun v => .pure fun hv => by rw [hv]; rfl
  | importDecl decl =>
      refine .peek fun token htoken => ?_
      rw [htoken]
      exact takes_itemOf (fun _ => rfl) (takes_importDecl decl)
  | enumDecl decl =>
      refine .peek fun token htoken => ?_
      rw [htoken]
      exact takes_itemOf (fun _ => rfl) (takes_enumDecl decl)
  | messageDecl decl =>
      refine .peek fun token htoken => ?_
      rw [htoken]
      exact takes_itemOf (fun _ => rfl) (takes_messageDecl decl)
  | parserSection rules =>
      refine .peek fun token htoken => ?_
      rw [htoken]
      exact (takes_parserSection rules).bindLast fun v => .pure fun hv => by simp [Item.bare, hv]

theorem inProtocol_eq {kind : TokenKind} {tokens : List Token}
    (h : tokens.map (·.kind) = kind :: behind) :
    inProtocol tokens = (kind != .endOfInput && kind != .symbol .braceClose) := by
  obtain ⟨token, rest, rfl, hkind, _⟩ := List.map_eq_cons_iff.mp h
  simp [inProtocol, hkind]

theorem Item.exists_word_eq_cons (i : Item) :
    ∃ kind rest, i.word = kind :: rest ∧ kind ≠ .endOfInput ∧ kind ≠ .symbol .braceClose := by
  cases i <;> exact ⟨_, _, rfl, by simp, by simp⟩

theorem ne_none_of_mem_items {p : Protocol} {i : Item} (h : i ∈ p.items) :
    i ≠ .version none ∧ i ≠ .description none := by
  constructor
  · rintro rfl
    simp [Protocol.items] at h
  · rintro rfl
    simp [Protocol.items] at h

theorem takes_items (p : Protocol) :
    Takes (Parser.sequence inProtocol item)
      (p.items.flatMap Item.word ++ .symbol .braceClose :: behind) (.symbol .braceClose :: behind)
      (p.items.flatMap Item.expressions)
      (fun items => items.map (Option.map Item.bare) = p.items.map (fun i => some i.bare)) := by
  refine .sequence p.items (fun _ => True) (fun i hi _ _ => ?_) ?_ ?_
    (fun _ _ _ => trivial) trivial fun tokens htokens => inProtocol_eq htokens
  · obtain ⟨hversion, hdescription⟩ := ne_none_of_mem_items hi
    exact takes_item hversion hdescription
  · intro i _ behind tokens htokens
    obtain ⟨kind, rest, hword, hend, hbrace⟩ := i.exists_word_eq_cons
    rw [hword] at htokens
    rw [inProtocol_eq htokens]
    simp [hend, hbrace]
  · intro i _
    obtain ⟨kind, rest, hword, _⟩ := i.exists_word_eq_cons
    simp [hword]

theorem flatMap_items_expressions (p : Protocol) :
    p.items.flatMap Item.expressions = p.expressions := by
  have hnone {α : Type} (xs : List α) : xs.flatMap (fun _ => ([] : List Expr)) = [] := by simp
  have hmessages : p.messages.flatMap (fun m => m.fields.flatMap FieldDecl.expressions) =
      p.messages.flatMap fun m => m.fields.flatMap fun f => f.modifiers.flatMap (·.arguments) := rfl
  have hrules (rules : List RuleDecl) : rules.flatMap RuleDecl.expressions =
      rules.flatMap fun r => r.condition :: r.actions.map (·.2) := rfl
  cases hsection : p.rules <;>
    simp [Protocol.items, Protocol.expressions, Item.expressions, List.flatMap_map, hnone,
      hmessages, hrules, hsection]

theorem takes_protocol (p : Protocol) :
    Takes protocol (p.word ++ [.endOfInput]) [.endOfInput] p.expressions
      (fun v => v.map Protocol.bare = some p.bare) := by
  simp only [Protocol.word, braced, List.cons_append, List.append_assoc, List.nil_append]
  refine .exactly (.skip rfl) (.exactly (.not_atKind (by simp)) (.exactly (.eatKind _) ?_))
  refine .exactly (.nameOr p.name _) (.exactly (.expect .openProtocol) ?_)
  rw [← flatMap_items_expressions]
  refine (takes_items p).bindLast fun items => .exactly (.expect .closeProtocol) ?_
  refine .exactly (.skip rfl) (.exactly (.atKind _) (.pure fun hitems => ?_))
  calc some ((items.filterMap id).foldl addItem (emptyProtocol p.name)).bare
      = some ((p.items.map Item.bare).foldl addItem (emptyProtocol p.name).bare) := by
        rw [foldl_addItem_bare, map_filterMap_id hitems]
    _ = some p.bare := by rw [← foldl_addItem_bare, foldl_addItem_items]

end Declaration

/-- Parsing undoes printing: of the tokens of a protocol, with any positions and with the end of the
text behind them, the same protocol is read, unless an expression in it is nested too deeply, and
then nothing else is wrong. -/
theorem Protocol.parse_word (p : Protocol) (tokens : List Token)
    (h : tokens.map (·.kind) = p.word ++ [.endOfInput]) :
    (∀ problem ∈ (Protocol.parse tokens).problems, problem.2 = .nestedTooDeeply) ∧
    ((Protocol.parse tokens).problems = [] ↔ ∀ e ∈ p.expressions, e.Shallow) ∧
    ((Protocol.parse tokens).problems = [] →
      (Protocol.parse tokens).value.map Protocol.bare = some p.bare) :=
  (Declaration.takes_protocol p _ tokens h).2

/-- `length - (n - 1)` -/
def difference : Expr :=
  .binary .sub (.name .unknown "length")
    (.binary .sub (.name .unknown "n") (.literal .unknown (.integer 1)))

theorem shallow_difference : difference.Shallow := by
  let inner : Phrase .whole := (Phrase.operation .sub rfl (.alone (.name (.identifier "n")) 2)
    (.alone (.literal (.integer 1)) 1)).loosen 8
  let outer : Phrase .whole := (Phrase.operation .sub rfl (.alone (.name (.modifier .length)) 2)
    (.alone (.group inner) 1)).loosen 8
  exact ⟨outer, rfl, by decide⟩

/-- A protocol with a base message, an optional field called `length` that has a modifier of the
same name, and an empty parser section. -/
def measured : Protocol where
  name := "P"
  version := some "1.0"
  description := none
  imports := [⟨"base.pdl", some "base", .unknown⟩]
  enums := [⟨"E", [("A", difference), ("B", difference)], .unknown⟩]
  messages := [⟨"M", some "N",
    [⟨.int .u8, "length", true, [⟨"length", [difference, difference], .unknown⟩], .unknown⟩],
    .unknown⟩]
  rules := some []

theorem Protocol.parse_word_measured :
    (Protocol.parse (tokensOf (measured.word ++ [.endOfInput]))).problems = [] ∧
      (Protocol.parse (tokensOf (measured.word ++ [.endOfInput]))).value.map Protocol.bare =
        some measured.bare := by
  obtain ⟨_, hclean, hvalue⟩ := Protocol.parse_word measured _ (map_kind_tokensOf _)
  have hshallow : ∀ e ∈ measured.expressions, e.Shallow := by
    simp [measured, Protocol.expressions, shallow_difference]
  exact ⟨hclean.mpr hshallow, hvalue (hclean.mpr hshallow)⟩

end WireSpec
