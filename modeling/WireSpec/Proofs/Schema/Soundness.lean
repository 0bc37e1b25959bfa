import WireSpec.Proofs.Schema.Completeness
/-!
# Only phrases are read

Where reading an expression meets no problem, the tokens that it took are the word of a phrase, but
for text that is no token, which is read as `null`.  The phrase needs no more than the allowance.
-/

namespace WireSpec.Grammar

open Expression WireSpec.Parser

def spelling (tokens : List Token) : List TokenKind :=
  tokens.map fun token => repaired token.kind

@[simp] theorem spelling_nil : spelling [] = [] := rfl

@[simp] theorem spelling_cons (head : Token) (tail : List Token) :
    spelling (head :: tail) = repaired head.kind :: spelling tail := rfl

@[simp] theorem spelling_append (xs ys : List Token) :
    spelling (xs ++ ys) = spelling xs ++ spelling ys :=
  List.map_append

@[simp] theorem repaired_symbol (symbol : Symbol) :
    repaired (.symbol symbol) = .symbol symbol := rfl

@[simp] theorem repaired_name (n : Name) : repaired n.kind = n.kind := by cases n <;> rfl

/-- The tokens in front of `rest` are a phrase with a value, for which the allowance suffices. -/
def Derives (f : Form) (a : Nat) (tokens rest : List Token) (value : f.Value) : Prop :=
  ∃ (t : Phrase f) (read : List Token), tokens = read ++ rest ∧
    spelling read = t.word ∧ t.value = value ∧ t.need ≤ a

variable {close : Position} {tokens rest : List Token} {a k : Nat}

theorem exists_cons_of_front (h : (front close tokens).kind ≠ .endOfInput) :
    ∃ head tail, tokens = head :: tail := by
  cases tokens with
  | nil => exact absurd rfl h
  | cons head tail => exact ⟨head, tail, rfl⟩

theorem exists_cons_of_symbol {symbol : Symbol}
    (h : (front close tokens).kind = .symbol symbol) :
    ∃ head tail, tokens = head :: tail ∧ head.kind = .symbol symbol := by
  have hfront : (front close tokens).kind ≠ .endOfInput := by simp [h]
  obtain ⟨head, tail, rfl⟩ := exists_cons_of_front hfront
  exact ⟨head, tail, rfl, h⟩

theorem exists_cons_of_name {text : String} (h : (front close tokens).kind.name? = some text) :
    ∃ (n : Name) (head : Token) (tail : List Token), tokens = head :: tail ∧
      head.kind = n.kind ∧ n.text = text := by
  obtain ⟨n, hn, htext⟩ := name?_eq_some.mp h
  have hfront : (front close tokens).kind ≠ .endOfInput := by
    rw [← hn]
    cases n <;> simp [Name.kind]
  obtain ⟨head, tail, rfl⟩ := exists_cons_of_front hfront
  exact ⟨n, head, tail, rfl, hn.symm, htext⟩

theorem expect_eq_of_clean {mark : Mark}
    (h : ((expect mark).run close tokens).problems = []) :
    ∃ head tail, tokens = head :: tail ∧ head.kind = .symbol mark.symbol ∧
      (expect mark).run close tokens = ⟨true, tail, []⟩ := by
  by_cases hfront : (front close tokens).kind = .symbol mark.symbol
  · obtain ⟨head, tail, rfl, hhead⟩ := exists_cons_of_symbol hfront
    exact ⟨head, tail, rfl, hhead, run_expect_ok hfront⟩
  · rw [run_expect, if_neg hfront] at h
    cases h

/-! ### Growing phrases

Chains and accesses are read step by step, and every step uses up one level of the allowance. -/

/-- Tokens are a phrase to which `b` more steps can be added within the allowance. -/
def Grows (f : Form) (a b : Nat) (read : List Token) (value : f.Value) : Prop :=
  ∃ t : Phrase f, spelling read = t.word ∧ t.value = value ∧ t.need ≤ a ∧ t.steps + b ≤ a

namespace Grows

variable {b : Nat} {read tail : List Token} {head : Token} {object : Expr}

theorem derives {f : Form} {value : f.Value} (h : Grows f a b read value) (rest : List Token) :
    Derives f a (read ++ rest) rest value := by
  obtain ⟨t, hread, hvalue, hneed, _⟩ := h
  exact ⟨t, read, rfl, hread, hvalue, hneed⟩

theorem operation {left right : Expr} {op : BinaryOp}
    (h : Grows (.binary (k + 1)) a (b + 1) read left) (hlevel : operatorLevel op = k)
    (hhead : head.kind = .symbol (operatorSymbol op))
    (hright : Derives (.binary k) b tail rest right) :
    ∃ read', read ++ head :: tail = read' ++ rest ∧
      Grows (.binary (k + 1)) a b read' (Expr.binary op left right) := by
  obtain ⟨t, hread, rfl, hneed, hsteps⟩ := h
  obtain ⟨r, readr, rfl, hreadr, rfl, hneedr⟩ := hright
  refine ⟨read ++ head :: readr, by simp, .operation op hlevel t r, ?_, rfl, ?_, ?_⟩
  · simp [Phrase.word, hread, hreadr, hhead]
  · simp only [Phrase.need]
    omega
  · simp only [Phrase.steps]
    omega

theorem member {dot name : Token} {n : Name} (h : Grows .accessed a (b + 1) read object)
    (hdot : dot.kind = .symbol .dot) (hname : name.kind = n.kind) :
    Grows .accessed a b (read ++ [dot, name]) (Expr.member object n.text) := by
  obtain ⟨t, hread, rfl, hneed, hsteps⟩ := h
  refine ⟨.member t n, ?_, rfl, ?_, ?_⟩
  · simp [Phrase.word, hread, hdot, hname]
  · simp only [Phrase.need]
    omega
  · simp only [Phrase.steps]
    omega

variable {closing : Token} {start stop : Expr}

theorem index (h : Grows .accessed a (b + 1) read object)
    (hhead : head.kind = .symbol .bracketOpen)
    (hstart : Derives .whole b tail (closing :: rest) start)
    (hclosing : closing.kind = .symbol .bracketClose) :
    ∃ read', read ++ head :: tail = read' ++ rest ∧
      Grows .accessed a b read' (Expr.index object start) := by
  obtain ⟨t, hread, rfl, hneed, hsteps⟩ := h
  obtain ⟨i, readi, rfl, hreadi, rfl, hneedi⟩ := hstart
  refine ⟨read ++ head :: (readi ++ [closing]), by simp, .index t i, ?_, rfl, ?_, ?_⟩
  · simp [Phrase.word, hread, hhead, hreadi, hclosing]
  · simp only [Phrase.need]
    omega
  · simp only [Phrase.steps]
    omega

theorem slice {dots : Token} {tail' : List Token} (h : Grows .accessed a (b + 1) read object)
    (hhead : head.kind = .symbol .bracketOpen)
    (hstart : Derives .whole b tail (dots :: tail') start)
    (hdots : dots.kind = .symbol .dotDot)
    (hstop : Derives .whole b tail' (closing :: rest) stop)
    (hclosing : closing.kind = .symbol .bracketClose) :
    ∃ read', read ++ head :: tail = read' ++ rest ∧
      Grows .accessed a b read' (Expr.slice object start stop) := by
  obtain ⟨t, hread, rfl, hneed, hsteps⟩ := h
  obtain ⟨i, readi, rfl, hreadi, rfl, hneedi⟩ := hstart
  obtain ⟨j, readj, rfl, hreadj, rfl, hneedj⟩ := hstop
  refine ⟨read ++ head :: (readi ++ dots :: (readj ++ [closing])), by simp, .slice t i j, ?_,
    rfl, ?_, ?_⟩
  · simp [Phrase.word, hread, hhead, hreadi, hdots, hreadj, hclosing]
  · simp only [Phrase.need]
    omega
  · simp only [Phrase.steps]
    omega

end Grows

/-! ### Readers -/

/-- Reading of the `k` tightest levels takes only phrases. -/
def Sound (close : Position) (a k : Nat) : Prop :=
  ∀ tokens, ((binary a (levels k)).run close tokens).problems = [] →
    Derives (.binary k) a tokens ((binary a (levels k)).run close tokens).rest
      ((binary a (levels k)).run close tokens).value.bare

theorem Sound.whole (h : Sound close a 10)
    (hclean : ((whole a).run close tokens).problems = []) :
    Derives .whole a tokens ((whole a).run close tokens).rest
      ((whole a).run close tokens).value.bare := by
  rw [Expression.whole, ← levels_ten] at hclean ⊢
  exact h tokens hclean

theorem chain_sound (hk : k < 10) (hlower : ∀ b < a, Sound close b k) {b : Nat} (hb : b ≤ a)
    {left : Expr} {read : List Token} (hread : Grows (.binary (k + 1)) a b read left.bare)
    (hclean : ((chain b (row k) (levels k) left).run close tokens).problems = []) :
    Derives (.binary (k + 1)) a (read ++ tokens)
      ((chain b (row k) (levels k) left).run close tokens).rest
      ((chain b (row k) (levels k) left).run close tokens).value.bare := by
  induction b generalizing left read tokens with
  | zero =>
      cases hop : operatorIn? (row k) (front close tokens).kind with
      | none =>
          rw [run_chain_stop hop]
          exact hread.derives tokens
      | some op =>
          rw [run_chain_zero hop] at hclean
          cases hclean
  | succ b ih =>
      cases hop : operatorIn? (row k) (front close tokens).kind with
      | none =>
          rw [run_chain_stop hop]
          exact hread.derives tokens
      | some op =>
          obtain ⟨hkind, hlevel⟩ := (operatorIn?_eq_some hk).mp hop
          obtain ⟨head, tail, rfl, hhead⟩ := exists_cons_of_symbol hkind
          rw [run_chain_succ hop] at hclean ⊢
          obtain ⟨hright, hclean⟩ := List.append_eq_nil_iff.mp hclean
          obtain ⟨read', hsource, hread'⟩ :=
            hread.operation hlevel hhead (hlower b (by omega) tail hright)
          rw [hsource]
          exact ih (by omega) hread' hclean

theorem access_sound (hwhole : ∀ b < a, Sound close b 10) {b : Nat} (hb : b ≤ a) {object : Expr}
    {read : List Token} (hread : Grows .accessed a b read object.bare)
    (hclean : ((access b object).run close tokens).problems = []) :
    Derives .accessed a (read ++ tokens) ((access b object).run close tokens).rest
      ((access b object).run close tokens).value.bare := by
  induction b generalizing object read tokens with
  | zero =>
      by_cases hgoes : (front close tokens).kind = .symbol .dot ∨
          (front close tokens).kind = .symbol .bracketOpen
      · rw [run_access_zero hgoes] at hclean
        cases hclean
      · obtain ⟨hdot, hbracket⟩ := not_or.mp hgoes
        rw [run_access_stop hdot hbracket]
        exact hread.derives tokens
  | succ b ih =>
      have hinner := hwhole b (by omega)
      by_cases hdot : (front close tokens).kind = .symbol .dot
      · obtain ⟨head, tail, rfl, hhead⟩ := exists_cons_of_symbol hdot
        rw [run_access_dot hdot, List.tail_cons] at hclean ⊢
        cases hname : (front close tail).kind.name? with
        | none =>
            rw [hname] at hclean
            cases hclean
        | some text =>
            rw [hname] at hclean
            obtain ⟨n, name, tail, rfl, hkind, rfl⟩ := exists_cons_of_name hname
            have hsource : read ++ head :: name :: tail = (read ++ [head, name]) ++ tail := by
              simp
            rw [hsource]
            exact ih (by omega) (hread.member hhead hkind) hclean
      by_cases hbracket : (front close tokens).kind = .symbol .bracketOpen
      · obtain ⟨head, tail, rfl, hhead⟩ := exists_cons_of_symbol hbracket
        by_cases hdots : (front close ((whole b).run close tail).rest).kind = .symbol .dotDot
        · rw [run_access_slice hbracket hdots] at hclean ⊢
          obtain ⟨hproblems, hclean⟩ := List.append_eq_nil_iff.mp hclean
          obtain ⟨hproblems, hclosing⟩ := List.append_eq_nil_iff.mp hproblems
          obtain ⟨hstart, hstop⟩ := List.append_eq_nil_iff.mp hproblems
          obtain ⟨dots, tail', hrest, hdots⟩ := exists_cons_of_symbol hdots
          obtain ⟨closing, rest, hrest', hclosing, hexpect⟩ := expect_eq_of_clean hclosing
          have hstart := hinner.whole hstart
          have hstop := hinner.whole hstop
          simp only [List.tail_cons, hrest] at hstart hstop hrest' hexpect hclean ⊢
          rw [hrest'] at hstop
          simp only [hexpect] at hclean ⊢
          obtain ⟨read', hsource, hread'⟩ := hread.slice hhead hstart hdots hstop hclosing
          rw [hsource]
          exact ih (by omega) hread' hclean
        · rw [run_access_index hbracket hdots] at hclean ⊢
          obtain ⟨hproblems, hclean⟩ := List.append_eq_nil_iff.mp hclean
          obtain ⟨hstart, hclosing⟩ := List.append_eq_nil_iff.mp hproblems
          obtain ⟨closing, rest, hrest, hclosing, hexpect⟩ := expect_eq_of_clean hclosing
          have hstart := hinner.whole hstart
          simp only [List.tail_cons] at hstart hrest hexpect hclean ⊢
          rw [hrest] at hstart
          simp only [hexpect] at hclean ⊢
          obtain ⟨read', hsource, hread'⟩ := hread.index hhead hstart hclosing
          rw [hsource]
          exact ih (by omega) hread' hclean
      · rw [run_access_stop hdot hbracket]
        exact hread.derives tokens

theorem exists_cons_of_commaNext (h : commaNext tokens = true) :
    ∃ comma tail, tokens = comma :: tail ∧ comma.kind = .symbol .comma := by
  cases tokens with
  | nil => cases h
  | cons comma tail => exact ⟨comma, tail, rfl, by simpa [commaNext] using h⟩

theorem arguments_sound (hwhole : Sound close a 10) (tokens : List Token)
    (hclean : ((commaSeparated (whole a)).run close tokens).problems = []) :
    Derives .arguments a tokens ((commaSeparated (whole a)).run close tokens).rest
      (Expr.bareAll ((commaSeparated (whole a)).run close tokens).value) := by
  -- Every argument takes at least the comma in front of it.
  induction hn : tokens.length using Nat.strongRecOn generalizing tokens with
  | ind n ih =>
      rw [run_commaSeparated] at hclean ⊢
      by_cases hcomma : commaNext ((whole a).run close tokens).rest = true
      · simp only [hcomma, if_true] at hclean ⊢
        obtain ⟨hfirst, hlater⟩ := List.append_eq_nil_iff.mp hclean
        obtain ⟨t, read, hsource, hread, hvalue, hneed⟩ := hwhole.whole hfirst
        obtain ⟨comma, tail, hrest, hcomma⟩ := exists_cons_of_commaNext hcomma
        rw [hrest] at hsource hlater
        have hshorter : tail.length < n := by
          rw [← hn, hsource, List.length_append, List.length_cons]
          omega
        obtain ⟨args, read', hsource', hread', hvalue', hneed'⟩ := ih _ hshorter tail hlater rfl
        rw [hrest, List.tail_cons]
        refine ⟨.more t args, read ++ comma :: read', ?_, ?_, ?_, Nat.max_le.mpr ⟨hneed, hneed'⟩⟩
        · rw [hsource, List.append_assoc, List.cons_append, ← hsource']
        · simp [Phrase.word, hread, hcomma, hread']
        · rw [Phrase.value, hvalue, hvalue']
          rfl
      · simp only [hcomma] at hclean ⊢
        obtain ⟨t, read, hsource, hread, hvalue, hneed⟩ := hwhole.whole hclean
        refine ⟨.last t, read, hsource, hread, ?_, hneed⟩
        rw [Phrase.value, hvalue]
        rfl

theorem call_sound (hwhole : Sound close a 10) {text : String}
    (hname : (front close tokens).kind.name? = some text)
    (hcall : (front close tokens.tail).kind = .symbol .parenOpen)
    (hclean : ((primary a).run close tokens).problems = []) :
    Derives .primary a tokens ((primary a).run close tokens).rest
      ((primary a).run close tokens).value.bare := by
  rw [run_primary_call hname hcall] at hclean ⊢
  obtain ⟨n, head, tail, rfl, hkind, rfl⟩ := exists_cons_of_name hname
  obtain ⟨opening, tail, rfl, hopening⟩ := exists_cons_of_symbol hcall
  simp only [List.tail_cons] at hclean ⊢
  by_cases hnone : (front close tail).kind = .symbol .parenClose
  · obtain ⟨closing, tail, rfl, hclosing⟩ := exists_cons_of_symbol hnone
    rw [run_argumentsWith_none (whole a) (.closeCall n.text) hnone]
    refine ⟨.call n, [head, opening, closing], rfl, ?_, rfl, Nat.zero_le a⟩
    simp [Phrase.word, hkind, hopening, hclosing]
  · rw [run_argumentsWith_some (whole a) (.closeCall n.text) rfl hnone] at hclean ⊢
    by_cases hclose : (front close ((commaSeparated (whole a)).run close tail).rest).kind =
        .symbol .parenClose
    · simp only [if_pos hclose] at hclean ⊢
      obtain ⟨args, read, hsource, hread, hvalue, hneed⟩ := arguments_sound hwhole tail hclean
      obtain ⟨closing, rest, hrest, hclosing⟩ := exists_cons_of_symbol hclose
      rw [hrest] at hsource
      rw [hrest]
      refine ⟨.callWith n args, head :: opening :: (read ++ [closing]), ?_, ?_, ?_, hneed⟩
      · simp [hsource]
      · simp [Phrase.word, hkind, hopening, hread, hclosing]
      · rw [Phrase.value, hvalue]
        rfl
    · simp only [if_neg hclose] at hclean
      simp at hclean

theorem primary_sound (hwhole : Sound close a 10) (tokens : List Token)
    (hclean : ((primary a).run close tokens).problems = []) :
    Derives .primary a tokens ((primary a).run close tokens).rest
      ((primary a).run close tokens).value.bare := by
  cases hliteral : literal? (front close tokens).kind with
  | some value =>
      rw [run_primary_literal hliteral]
      have hfront : (front close tokens).kind ≠ .endOfInput := by
        intro hend
        rw [hend] at hliteral
        cases hliteral
      obtain ⟨head, tail, rfl⟩ := exists_cons_of_front hfront
      have hspelling : spelling [head] = (Phrase.literal value).word :=
        congrArg (fun kind => [kind]) (literal?_eq_some.mp hliteral)
      exact ⟨.literal value, [head], rfl, hspelling, rfl, Nat.zero_le a⟩
  | none =>
      by_cases hparen : (front close tokens).kind = .symbol .parenOpen
      · obtain ⟨opening, tail, rfl, hopening⟩ := exists_cons_of_symbol hparen
        rw [run_primary_group hparen] at hclean ⊢
        obtain ⟨hinner, hclosing⟩ := List.append_eq_nil_iff.mp hclean
        obtain ⟨closing, rest, hrest, hclosing, hexpect⟩ := expect_eq_of_clean hclosing
        obtain ⟨t, read, hsource, hread, hvalue, hneed⟩ := hwhole.whole hinner
        simp only [List.tail_cons] at hsource hrest hexpect hvalue ⊢
        rw [hrest] at hsource
        rw [hexpect]
        refine ⟨.group t, opening :: (read ++ [closing]), ?_, ?_, hvalue, hneed⟩
        · simp [hsource]
        · simp [Phrase.word, hopening, hread, hclosing, Mark.symbol]
      cases hname : (front close tokens).kind.name? with
      | none =>
          rw [run_primary_none hliteral hparen hname] at hclean
          cases hclean
      | some text =>
          by_cases hcall : (front close tokens.tail).kind = .symbol .parenOpen
          · exact call_sound hwhole hname hcall hclean
          · rw [run_primary_name hname hcall]
            obtain ⟨n, head, tail, rfl, hkind, rfl⟩ := exists_cons_of_name hname
            exact ⟨.name n, [head], rfl, by simp [Phrase.word, hkind], rfl, Nat.zero_le a⟩

/-- What is read of the prefix operators, where that is all an expression has outside of
brackets. -/
theorem unary_sound (hbelow : ∀ b < a, Sound close b 0 ∧ Sound close b 10) : Sound close a 0 := by
  intro tokens hclean
  rw [show levels 0 = [] from rfl, run_binary_nil] at hclean ⊢
  cases a with
  | zero =>
      rw [run_unary_zero] at hclean
      cases hclean
  | succ a =>
      rw [run_unary_succ] at hclean ⊢
      obtain ⟨hunary, hwhole⟩ := hbelow a (Nat.lt_succ_self a)
      cases hop : prefixOp? (front close tokens).kind with
      | some op =>
          rw [run_operand_signed hop] at hclean ⊢
          obtain ⟨head, tail, rfl, hhead⟩ := exists_cons_of_symbol (prefixOp?_eq_some.mp hop)
          rw [List.tail_cons, ← run_binary_nil] at hclean ⊢
          obtain ⟨t, read, hsource, hread, hvalue, hneed⟩ := hunary tail hclean
          cases t with
          | operand t =>
              refine ⟨.operand (.signed op t), head :: read, ?_, ?_, ?_, Nat.succ_le_succ hneed⟩
              · exact congrArg (head :: ·) hsource
              · rw [spelling_cons, hread, hhead]
                rfl
              · exact congrArg (Expr.unary .unknown op) hvalue
      | none =>
          rw [run_operand_unsigned hop] at hclean ⊢
          obtain ⟨hprimary, haccess⟩ := List.append_eq_nil_iff.mp hclean
          obtain ⟨t, read, hsource, hread, hvalue, hneed⟩ := primary_sound hwhole tokens hprimary
          have hgrows : Grows .accessed a a read ((primary a).run close tokens).value.bare :=
            ⟨.object t, hread, hvalue, hneed, by simp [Phrase.steps]⟩
          have hbelow' : ∀ b < a, Sound close b 10 := fun b hb => (hbelow b (by omega)).2
          obtain ⟨t, read', hsource', hread', hvalue', hneed'⟩ :=
            access_sound hbelow' (Nat.le_refl a) hgrows haccess
          rw [← hsource] at hsource'
          exact ⟨.operand (.unsigned t), read', hsource', hread', hvalue',
            Nat.succ_le_succ hneed'⟩

theorem sound (close : Position) (a : Nat) : ∀ k ≤ 10, Sound close a k := by
  -- Right operands and what is in brackets are read with a smaller allowance, left operands with the
  -- same one at a tighter level.
  induction a using Nat.strongRecOn with
  | ind a ih =>
      intro k hk
      induction k with
      | zero => exact unary_sound fun b hb => ⟨ih b hb 0 (by omega), ih b hb 10 (by omega)⟩
      | succ k ihk =>
          intro tokens hclean
          rw [levels_succ k hk, run_binary_cons] at hclean ⊢
          obtain ⟨hleft, hchain⟩ := List.append_eq_nil_iff.mp hclean
          obtain ⟨t, read, hsource, hread, hvalue, hneed⟩ := ihk (by omega) tokens hleft
          have hgrows : Grows (.binary (k + 1)) a a read
              ((binary a (levels k)).run close tokens).value.bare :=
            ⟨.tighter t, hread, hvalue, hneed, by simp [Phrase.steps]⟩
          have hchain := chain_sound hk (fun b hb => ih b hb k (by omega)) (Nat.le_refl a) hgrows
            hchain
          rw [← hsource] at hchain
          exact hchain

/-! ### Whole expressions -/

theorem reads_expression (close : Position) (t : Phrase .whole) {w rest : List Token}
    (hw : w.map (·.kind) = t.word) (hrest : Closed rest) :
    Reads (expression.run close (w ++ rest)) t.value (t.need ≤ nestingLimit) rest :=
  (completes close t).reads_whole hw hrest nestingLimit

theorem expression_derives {close : Position} {tokens : List Token}
    (hclean : (expression.run close tokens).problems = []) :
    Derives .whole nestingLimit tokens (expression.run close tokens).rest
      (expression.run close tokens).value.bare :=
  (sound close nestingLimit 10 (Nat.le_refl 10)).whole hclean

theorem spelling_eq_map {read : List Token} (h : ∀ token ∈ read, token.kind ≠ .invalid) :
    spelling read = read.map (·.kind) := by
  refine List.map_congr_left fun token htoken => ?_
  have hkind := h token htoken
  unfold repaired
  split
  · rename_i hinvalid
    exact absurd hinvalid hkind
  · rfl

/-- Reading an expression accepts exactly the grammar: a phrase in front of a closer is read up to
that closer, with no other problem than that it is nested too deeply, which it is if it needs more
levels than there are, and otherwise as the expression it stands for; and where there is no problem,
the tokens that were read are a phrase of the expression, unless one of them is no token. -/
theorem expression_reads_phrases (close : Position) :
    (∀ (t : Phrase .whole) (w rest : List Token), w.map (·.kind) = t.word → Closed rest →
      (expression.run close (w ++ rest)).rest = rest ∧
      (∀ p ∈ (expression.run close (w ++ rest)).problems, p.2 = .nestedTooDeeply) ∧
      ((expression.run close (w ++ rest)).problems = [] ↔ t.need ≤ nestingLimit) ∧
      ((expression.run close (w ++ rest)).problems = [] →
        (expression.run close (w ++ rest)).value.bare = t.value)) ∧
    ∀ tokens, (expression.run close tokens).problems = [] →
      ∃ read, tokens = read ++ (expression.run close tokens).rest ∧
        ((∀ token ∈ read, token.kind ≠ .invalid) → ∃ t : Phrase .whole,
          read.map (·.kind) = t.word ∧ (expression.run close tokens).value.bare = t.value) := by
  constructor
  · intro t w rest hw hrest
    have hreads := reads_expression close t hw hrest
    exact ⟨hreads.rest_eq hrest, hreads.only, hreads.clean, hreads.value⟩
  · intro tokens hclean
    obtain ⟨t, read, hsource, hread, hvalue, _⟩ := expression_derives hclean
    refine ⟨read, hsource, fun hvalid => ⟨t, ?_, hvalue.symm⟩⟩
    rw [← spelling_eq_map hvalid, hread]

/-- Tokens of these kinds one behind the other, whatever their positions. -/
def tokensOf (kinds : List TokenKind) : List Token :=
  kinds.map fun kind => ⟨kind, "", .unknown⟩

theorem map_kind_tokensOf (kinds : List TokenKind) : (tokensOf kinds).map (·.kind) = kinds := by
  simp [tokensOf, Function.comp_def]

/-- The phrase `a - f(x[1..2]) * 3`. -/
def mixedPhrase : Phrase .whole :=
  let sliced : Phrase .accessed := .slice (.object (.name (.identifier "x")))
    (Phrase.alone (.literal (.integer 1)) 10) (Phrase.alone (.literal (.integer 2)) 10)
  let call : Phrase .primary := .callWith (.identifier "f")
    (.last ((Phrase.operand (.unsigned sliced)).loosen 10))
  (Phrase.operation .sub rfl (Phrase.alone (.name (.identifier "a")) 2)
    (.operation .mul rfl (Phrase.alone call 1) (Phrase.alone (.literal (.integer 3)) 0))).loosen 8

theorem expression_reads_phrases_mixed :
    (expression.run .start (tokensOf mixedPhrase.word ++ tokensOf [.symbol .semicolon])).rest =
        tokensOf [.symbol .semicolon] ∧
      (expression.run .start
        (tokensOf mixedPhrase.word ++ tokensOf [.symbol .semicolon])).value.bare =
          mixedPhrase.value ∧
      ∃ t : Phrase .whole, mixedPhrase.word = t.word ∧ mixedPhrase.value = t.value := by
  have hclosed : Closed (tokensOf [.symbol .semicolon]) := closed_cons (by simp [closers]) []
  obtain ⟨hrest, _, hclean, hvalue⟩ := (expression_reads_phrases .start).1 mixedPhrase
    (tokensOf mixedPhrase.word) _ (map_kind_tokensOf _) hclosed
  have hnone := hclean.mpr (by decide)
  obtain ⟨read, hsource, hderives⟩ := (expression_reads_phrases .start).2 _ hnone
  have hread : read = tokensOf mixedPhrase.word := by
    rw [hrest] at hsource
    exact (List.append_cancel_right hsource).symm
  have hvalid : ∀ token ∈ read, token.kind ≠ .invalid := by
    rw [hread]
    decide +kernel
  obtain ⟨t, hword, hsame⟩ := hderives hvalid
  rw [hread, map_kind_tokensOf] at hword
  rw [hvalue hnone] at hsame
  exact ⟨hrest, hvalue hnone, t, hword, hsame⟩

end WireSpec.Grammar
