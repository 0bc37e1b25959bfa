import WireSpec.Proofs.Schema.Reading
/-!
# Every phrase is read

By induction on phrases, one lemma for each of the ways in which they are made.  Chains are read up
to where they could go on, since a longer chain begins with them.
-/

namespace WireSpec.Grammar

open Expression WireSpec.Parser Skip

variable {value : Expr} {enough : Prop} {rest : List Token} {close : Position} {k a : Nat}

theorem run_chain_bounded (hk : k < 10) (h : Bounded (k + 1) close rest) (left : Expr) :
    (chain a (row k) (levels k) left).run close rest = ⟨left, rest, []⟩ := by
  apply run_chain_stop
  refine Option.eq_none_iff_forall_ne_some.mpr fun op hop => ?_
  obtain ⟨hkind, hlevel⟩ := (operatorIn?_eq_some hk).mp hop
  exact h.not_operator op (by omega) hkind

theorem run_access_bounded (h : Bounded 0 close rest) (object : Expr) :
    (access a object).run close rest = ⟨object, rest, []⟩ :=
  run_access_stop h.not_member h.not_index

/-! ### Chains of operators -/

/-- How operators of one level are read behind `left`. -/
def goChain (k : Nat) (close : Position) (a : Nat) (left : Expr) (tokens : List Token) :
    Outcome Expr :=
  (chain a (row k) (levels k) left).run close tokens

/-- How accesses are read behind `object`. -/
def goAccess (close : Position) (a : Nat) (object : Expr) (tokens : List Token) : Outcome Expr :=
  (access a object).run close tokens

/-- What it means that a phrase is read, by its form.  Chains are read up to where they could go
on. -/
def Completes (close : Position) : {f : Form} → Phrase f → Prop
  | .binary 0, t => ∀ w rest a, w.map (·.kind) = t.word → Bounded 0 close rest →
      Reads ((binary a (levels 0)).run close (w ++ rest)) t.value (t.need ≤ a) rest
  | .binary (k + 1), t => ∀ w rest a, k < 10 → w.map (·.kind) = t.word → Bounded k close rest →
      Continues (goChain k close) ((binary a (levels (k + 1))).run close (w ++ rest)) a t.steps
        t.need t.value rest
  | .unary, t => ∀ w rest a, w.map (·.kind) = t.word → Bounded 0 close rest →
      Reads ((unary a).run close (w ++ rest)) t.value (t.need ≤ a) rest
  | .accessed, t => ∀ w rest a, w.map (·.kind) = t.word →
      (front close rest).kind ≠ .symbol .parenOpen →
      Continues (goAccess close)
        ((goAccess close a ((primary a).run close (w ++ rest)).value
          ((primary a).run close (w ++ rest)).rest).behind
            ((primary a).run close (w ++ rest)).problems) a t.steps t.need t.value rest
  | .primary, t => ∀ w rest a, w.map (·.kind) = t.word →
      (front close rest).kind ≠ .symbol .parenOpen →
      Reads ((primary a).run close (w ++ rest)) t.value (t.need ≤ a) rest
  | .arguments, t => ∀ w rest a, w.map (·.kind) = t.word →
      (front close rest).kind = .symbol .parenClose →
      ((commaSeparated (whole a)).run close (w ++ rest)).rest = rest ∧
      OnlyTooDeep ((commaSeparated (whole a)).run close (w ++ rest)).problems ∧
      (((commaSeparated (whole a)).run close (w ++ rest)).problems = [] ↔ t.need ≤ a) ∧
      (((commaSeparated (whole a)).run close (w ++ rest)).problems = [] →
        Expr.bareAll ((commaSeparated (whole a)).run close (w ++ rest)).value = t.value)

theorem Completes.reads {t : Phrase (.binary k)} (h : Completes close t) (hk : k ≤ 10)
    {w : List Token} (hw : w.map (·.kind) = t.word) (hrest : Bounded k close rest) (a : Nat) :
    Reads ((binary a (levels k)).run close (w ++ rest)) t.value (t.need ≤ a) rest := by
  cases k with
  | zero => exact h w rest a hw hrest
  | succ k =>
      have hcontinues := h w rest a hk hw (hrest.mono (Nat.le_succ k))
      exact hcontinues.reads fun b left => run_chain_bounded hk hrest left

/-- An expression in brackets ends at what stands behind it. -/
theorem Completes.reads_whole {t : Phrase .whole} (h : Completes close t) {w : List Token}
    (hw : w.map (·.kind) = t.word) (hrest : Closed rest) (a : Nat) :
    Reads ((whole a).run close (w ++ rest)) t.value (t.need ≤ a) rest := by
  rw [whole]
  exact h.reads (Nat.le_refl 10) hw (hrest.bounded 10 close) a

theorem completes_tighter {t : Phrase (.binary k)} (ih : Completes close t) :
    Completes close (.tighter t) := by
  intro w rest a hk hw hrest
  have hreads := ih.reads (Nat.le_of_lt hk) hw hrest a
  rw [levels_succ k hk, run_binary_cons]
  have hcontinues := hreads.continues (goChain k close) 0 (f := id) hreads.value
    fun left => run_chain_bounded hk ((closed_past 0 rest).bounded _ close) left
  rw [Nat.zero_add] at hcontinues
  exact hcontinues

theorem completes_operation (op : BinaryOp) (hlevel : operatorLevel op = k)
    {l : Phrase (.binary (k + 1))} {r : Phrase (.binary k)} (ihl : Completes close l)
    (ihr : Completes close r) : Completes close (.operation op hlevel l r) := by
  intro w rest a hk hw hrest
  obtain ⟨wl, head, wr, rfl, hl, hhead, hr⟩ := exists_split hw
  rw [List.append_assoc, List.cons_append]
  have hleft := ihl wl (head :: (wr ++ rest)) a hk hl (hlevel ▸ bounded_operator op hhead)
  have hpast : past subexpression 0 (wr ++ rest) = past subexpression 0 rest :=
    past_phrase r hr 0 (by simp) rest
  have hop : operatorIn? (row k) (front close (head :: (wr ++ rest))).kind = some op :=
    (operatorIn?_eq_some hk).mpr ⟨hhead, hlevel⟩
  have hskip : past subexpression 0 (head :: (wr ++ rest)) = past subexpression 0 rest := by
    rw [past_plain (hhead ▸ isPlain_operator op), hpast]
  refine hleft.step (m := 1 + r.need) (g := fun e => .binary op e r.value) ?_ hskip
  intro b left
  cases b with
  | zero =>
      rw [goChain, run_chain_zero hop]
      exact Or.inr ⟨stuck_of_past_eq left _ hskip, by omega⟩
  | succ b =>
      rw [goChain, run_chain_succ hop, List.tail_cons]
      have hright := ihr.reads (Nat.le_of_lt hk) hr hrest b
      exact hright.continues (goChain k close) 1 (f := fun e => .binary op left e)
        (fun hclean => congrArg (Expr.binary op left.bare) (hright.value hclean))
        fun left => run_chain_bounded hk ((closed_past 0 rest).bounded _ close) left

/-! ### Prefix operators -/

theorem completes_operand {t : Phrase .unary} (ih : Completes close t) :
    Completes close (.operand t) := by
  intro w rest a hw hrest
  rw [show levels 0 = [] from rfl, run_binary_nil]
  exact ih w rest a hw hrest

/-- Where nothing is left of the allowance, a whole phrase is passed over. -/
theorem reads_unary_zero (t : Phrase .unary) {w : List Token} (hw : w.map (·.kind) = t.word)
    (rest : List Token) :
    Reads ((unary 0).run close (w ++ rest)) t.value (t.need ≤ 0) rest := by
  have hstuck : Stuck ((unary 0).run close (w ++ rest)) rest := by
    rw [run_unary_zero]
    exact stuck_of_past_eq _ _ (past_phrase t hw 0 (by simp) rest)
  exact hstuck.reads (Nat.not_le_of_lt t.need_pos)

theorem completes_signed (op : UnaryOp) {t : Phrase .unary} (ih : Completes close t) :
    Completes close (.signed op t) := by
  intro w rest a hw hrest
  cases a with
  | zero => exact reads_unary_zero _ hw rest
  | succ a =>
      obtain ⟨head, w, rfl, hhead, hw⟩ := List.map_eq_cons_iff.mp hw
      have hop : prefixOp? (front close (head :: (w ++ rest))).kind = some op :=
        prefixOp?_eq_some.mpr hhead
      rw [run_unary_succ, List.cons_append, run_operand_signed hop]
      have hreads := (ih w rest a hw hrest).map (f := .unary head.position op)
        (g := .unary .unknown op) fun e => rfl
      exact hreads.of_iff Nat.succ_le_succ_iff.symm

theorem completes_unsigned {t : Phrase .accessed} (ih : Completes close t) :
    Completes close (.unsigned t) := by
  intro w rest a hw hrest
  cases a with
  | zero => exact reads_unary_zero _ hw rest
  | succ a =>
      have hprefix : prefixOp? (front close (w ++ rest)).kind = none := by
        obtain ⟨kind, kinds, hword, _, hprefix⟩ := t.exists_word_eq_cons
        obtain ⟨head, w, rfl, hhead, _⟩ := List.map_eq_cons_iff.mp (hw.trans hword)
        rw [List.cons_append, front, hhead]
        exact hprefix (Or.inl rfl)
      rw [run_unary_succ, run_operand_unsigned hprefix]
      have hcontinues := ih w rest a hw hrest.not_call
      have hreads := hcontinues.reads fun b object => run_access_bounded hrest object
      exact hreads.of_iff Nat.succ_le_succ_iff.symm

/-! ### Accesses -/

theorem completes_object {t : Phrase .primary} (ih : Completes close t) :
    Completes close (.object t) := by
  intro w rest a hw hrest
  have hreads := ih w rest a hw hrest
  have hcontinues := hreads.continues (goAccess close) 0 (f := id) hreads.value
    fun object => run_access_bounded ((closed_past 0 rest).bounded 0 close) object
  rw [Nat.zero_add] at hcontinues
  exact hcontinues

/-- One access: without allowance it is passed over. -/
theorem continues_access {w : List Token} {head : Token} {m : Nat} {g : Expr → Expr}
    (hhead : head.kind = .symbol .dot ∨ head.kind = .symbol .bracketOpen) (hm : 0 < m)
    (hpast : past subexpression 0 (head :: (w ++ rest)) = past subexpression 0 rest)
    (hsucc : ∀ b object, Continues (goAccess close)
      (goAccess close (b + 1) object (head :: (w ++ rest))) (b + 1) 1 m (g object.bare) rest)
    (b : Nat) (object : Expr) :
    Continues (goAccess close) (goAccess close b object (head :: (w ++ rest))) b 1 m
      (g object.bare) rest := by
  cases b with
  | zero =>
      have hfront : (front close (head :: (w ++ rest))).kind = .symbol .dot ∨
          (front close (head :: (w ++ rest))).kind = .symbol .bracketOpen := hhead
      rw [goAccess, run_access_zero hfront]
      exact Or.inr ⟨stuck_of_past_eq object _ hpast, hm⟩
  | succ b => exact hsucc b object

theorem completes_member {t : Phrase .accessed} (n : Name) (ih : Completes close t) :
    Completes close (.member t n) := by
  intro w rest a hw hrest
  obtain ⟨wt, dot, w', rfl, ht, hdot, hw'⟩ := exists_split hw
  obtain ⟨name, rfl, hname⟩ := exists_singleton hw'
  rw [List.append_assoc, List.cons_append]
  have hobject := ih wt (dot :: ([name] ++ rest)) a ht (by simp [front, hdot])
  have hpast : past subexpression 0 (dot :: ([name] ++ rest)) = past subexpression 0 rest := by
    rw [past_plain (hdot ▸ isPlain_dot), List.singleton_append,
      past_plain (hname ▸ isPlain_name n)]
  refine hobject.step (m := 1) (g := fun e => .member e n.text) ?_ hpast
  refine continues_access (g := fun e => .member e n.text) (Or.inl hdot) Nat.one_pos hpast
    fun b object => ?_
  have hfront : (front close (dot :: ([name] ++ rest))).kind = .symbol .dot := hdot
  have hname? : (front close (dot :: ([name] ++ rest)).tail).kind.name? = some n.text :=
    name?_eq_some.mpr ⟨n, hname.symm, rfl⟩
  rw [goAccess, run_access_dot hfront, hname?]
  exact Or.inl ⟨.member object n.text, [], rfl, by omega, by simp [OnlyTooDeep], by simp,
    fun _ => rfl⟩

theorem closed_cons {head : Token} (h : head.kind ∈ closers) (rest : List Token) :
    Closed (head :: rest) := by
  intro t ht
  obtain rfl := Option.some.inj ht
  exact h

theorem run_expect_ok {mark : Mark} {tokens : List Token}
    (h : (front close tokens).kind = .symbol mark.symbol) :
    (expect mark).run close tokens = ⟨true, tokens.tail, []⟩ := by
  rw [run_expect, if_pos h]

theorem completes_index {t : Phrase .accessed} {i : Phrase .whole} (iht : Completes close t)
    (ihi : Completes close i) : Completes close (.index t i) := by
  intro w rest a hw hrest
  rw [Phrase.word, List.append_assoc, List.cons_append] at hw
  obtain ⟨wt, opening, w', rfl, ht, hopening, hw'⟩ := exists_split hw
  obtain ⟨wi, closing, wn, rfl, hi, hclosing, hn⟩ := exists_split hw'
  obtain rfl := List.map_eq_nil_iff.mp hn
  have hclosed : Closed (closing :: rest) := closed_cons (by simp [hclosing, closers]) rest
  have hinner : (wi ++ [closing]) ++ rest = wi ++ closing :: rest := by simp
  have hpast : past subexpression 0 (opening :: ((wi ++ [closing]) ++ rest)) =
      past subexpression 0 rest := by
    rw [past_open 0 (Or.inr hopening), hinner, past_phrase i hi 1 (by simp),
      past_close 0 (Or.inr hclosing)]
  rw [List.append_assoc, List.cons_append]
  have hobject := iht wt (opening :: ((wi ++ [closing]) ++ rest)) a ht
    (by simp [front, hopening])
  refine hobject.step (m := 1 + i.need) (g := fun e => .index e i.value) ?_ hpast
  refine continues_access (g := fun e => .index e i.value) (Or.inr hopening) (by omega) hpast
    fun b object => ?_
  have hfront : (front close (opening :: ((wi ++ [closing]) ++ rest))).kind =
      .symbol .bracketOpen := hopening
  have hreads := ihi.reads_whole hi hclosed b
  have hbehind : ((whole b).run close (opening :: ((wi ++ [closing]) ++ rest)).tail).rest =
      closing :: rest := by
    rw [List.tail_cons, hinner, hreads.rest_eq hclosed]
  have hdots : (front close (closing :: rest)).kind ≠ .symbol .dotDot := by
    simp [front, hclosing]
  have hbracket : (expect .closeIndex).run close (closing :: rest) = ⟨true, rest, []⟩ :=
    run_expect_ok hclosing
  rw [goAccess, run_access_index hfront (by rwa [hbehind])]
  simp only [List.tail_cons, hinner, hreads.rest_eq hclosed, hbracket, List.append_nil]
  refine Or.inl ⟨_, _, rfl, by omega, hreads.only, hreads.clean.trans (by omega), ?_⟩
  intro hclean
  exact congrArg (Expr.index object.bare) (hreads.value hclean)

theorem completes_slice {t : Phrase .accessed} {i j : Phrase .whole} (iht : Completes close t)
    (ihi : Completes close i) (ihj : Completes close j) : Completes close (.slice t i j) := by
  intro w rest a hw hrest
  rw [Phrase.word, List.append_assoc, List.append_assoc, List.cons_append, List.cons_append]
    at hw
  obtain ⟨wt, opening, w', rfl, ht, hopening, hw'⟩ := exists_split hw
  obtain ⟨wi, dots, w', rfl, hi, hdots, hw'⟩ := exists_split hw'
  obtain ⟨wj, closing, wn, rfl, hj, hclosing, hn⟩ := exists_split hw'
  obtain rfl := List.map_eq_nil_iff.mp hn
  have hfrom : Closed (dots :: (wj ++ closing :: rest)) :=
    closed_cons (by simp [hdots, closers]) _
  have hto : Closed (closing :: rest) := closed_cons (by simp [hclosing, closers]) rest
  have hinner : (wi ++ dots :: (wj ++ [closing])) ++ rest =
      wi ++ dots :: (wj ++ closing :: rest) := by simp
  have hpast : past subexpression 0 (opening :: ((wi ++ dots :: (wj ++ [closing])) ++ rest)) =
      past subexpression 0 rest := by
    rw [past_open 0 (Or.inr hopening), hinner, past_phrase i hi 1 (by simp),
      past_separator 0 (Or.inr hdots), past_phrase j hj 1 (by simp),
      past_close 0 (Or.inr hclosing)]
  rw [List.append_assoc, List.cons_append]
  have hobject := iht wt (opening :: ((wi ++ dots :: (wj ++ [closing])) ++ rest)) a ht
    (by simp [front, hopening])
  refine hobject.step (m := 1 + max i.need j.need) (g := fun e => .slice e i.value j.value) ?_
    hpast
  refine continues_access (g := fun e => .slice e i.value j.value) (Or.inr hopening) (by omega)
    hpast fun b object => ?_
  have hfront : (front close (opening :: ((wi ++ dots :: (wj ++ [closing])) ++ rest))).kind =
      .symbol .bracketOpen := hopening
  have hstart := ihi.reads_whole hi hfrom b
  have hstop := ihj.reads_whole hj hto b
  have hbehind : ((whole b).run close
      (opening :: ((wi ++ dots :: (wj ++ [closing])) ++ rest)).tail).rest =
        dots :: (wj ++ closing :: rest) := by
    rw [List.tail_cons, hinner, hstart.rest_eq hfrom]
  have hdots' : (front close (dots :: (wj ++ closing :: rest))).kind = .symbol .dotDot := hdots
  have hbracket : (expect .closeIndex).run close (closing :: rest) = ⟨true, rest, []⟩ :=
    run_expect_ok hclosing
  rw [goAccess, run_access_slice hfront (by rwa [hbehind])]
  simp only [List.tail_cons, hinner, hstart.rest_eq hfrom, hstop.rest_eq hto, hbracket,
    List.append_nil]
  refine Or.inl ⟨_, _, rfl, by omega, hstart.only.append hstop.only, ?_, ?_⟩
  · rw [List.append_eq_nil_iff, hstart.clean, hstop.clean]
    omega
  · intro hclean
    obtain ⟨hclean, hclean'⟩ := List.append_eq_nil_iff.mp hclean
    rw [Expr.bare, hstart.value hclean, hstop.value hclean']

/-! ### Primaries and arguments -/

theorem reads_ok {e : Expr} (h : e.bare = value) (henough : enough) :
    Reads ⟨e, rest, []⟩ value enough rest :=
  ⟨by simp [OnlyTooDeep], iff_of_true rfl henough, fun _ => h, Or.inl rfl⟩

theorem completes_literal (v : Literal) : Completes close (.literal v) := by
  intro w rest a hw _
  obtain ⟨head, rfl, hhead⟩ := exists_singleton hw
  have hliteral : literal? (front close ([head] ++ rest)).kind = some v := by
    rw [List.singleton_append, front, hhead, literal?_literalKind]
  rw [run_primary_literal hliteral]
  exact reads_ok rfl (Nat.zero_le a)

theorem completes_name (n : Name) : Completes close (.name n) := by
  intro w rest a hw hrest
  obtain ⟨head, rfl, hhead⟩ := exists_singleton hw
  have hname : (front close ([head] ++ rest)).kind.name? = some n.text :=
    name?_eq_some.mpr ⟨n, hhead.symm, rfl⟩
  rw [run_primary_name hname hrest]
  exact reads_ok rfl (Nat.zero_le a)

theorem completes_call (n : Name) : Completes close (.call n) := by
  intro w rest a hw _
  obtain ⟨head, w, rfl, hhead, hw⟩ := List.map_eq_cons_iff.mp hw
  obtain ⟨opening, w, rfl, hopening, hw⟩ := List.map_eq_cons_iff.mp hw
  obtain ⟨closing, rfl, hclosing⟩ := exists_singleton hw
  have hname : (front close (head :: opening :: closing :: rest)).kind.name? = some n.text :=
    name?_eq_some.mpr ⟨n, hhead.symm, rfl⟩
  have hparen : (front close (head :: opening :: closing :: rest).tail).kind =
      .symbol .parenOpen := hopening
  have hclose : (front close (head :: opening :: closing :: rest).tail.tail).kind =
      .symbol .parenClose := hclosing
  have hrun := run_primary_call (a := a) hname hparen
  simp only [run_argumentsWith_none _ _ hclose] at hrun
  rw [List.cons_append, List.cons_append, List.singleton_append, hrun]
  exact reads_ok rfl (Nat.zero_le a)

theorem completes_callWith (n : Name) {args : Phrase .arguments} (ih : Completes close args) :
    Completes close (.callWith n args) := by
  intro w rest a hw _
  obtain ⟨head, w, rfl, hhead, hw⟩ := List.map_eq_cons_iff.mp hw
  obtain ⟨opening, w, rfl, hopening, hw⟩ := List.map_eq_cons_iff.mp hw
  obtain ⟨wa, closing, wn, rfl, ha, hclosing, hn⟩ := exists_split hw
  obtain rfl := List.map_eq_nil_iff.mp hn
  have hinner : (wa ++ [closing]) ++ rest = wa ++ closing :: rest := by simp
  have hname : (front close (head :: opening :: (wa ++ closing :: rest))).kind.name? =
      some n.text := name?_eq_some.mpr ⟨n, hhead.symm, rfl⟩
  have hparen : (front close (head :: opening :: (wa ++ closing :: rest)).tail).kind =
      .symbol .parenOpen := hopening
  have hargs : (front close (wa ++ closing :: rest)).kind ≠ .symbol .parenClose := by
    obtain ⟨kind, kinds, hword, hclose, _⟩ := args.exists_word_eq_cons
    obtain ⟨first, wa, rfl, hfirst, _⟩ := List.map_eq_cons_iff.mp (ha.trans hword)
    simpa [front, hfirst] using hclose
  obtain ⟨hbehind, honly, hclean, hvalue⟩ := ih wa (closing :: rest) a ha hclosing
  have hclosing' : (front close (closing :: rest)).kind = .symbol .parenClose := hclosing
  have hrunArgs := run_argumentsWith_some (whole a) (.closeCall n.text) rfl hargs
  simp only [hbehind, if_pos hclosing', List.tail_cons] at hrunArgs
  have hrun := run_primary_call (a := a) hname hparen
  simp only [List.tail_cons, hrunArgs] at hrun
  rw [List.cons_append, List.cons_append, hinner, hrun]
  refine ⟨honly, hclean, fun hnil => ?_, Or.inl rfl⟩
  rw [Expr.bare, hvalue hnil]
  rfl

theorem completes_group {t : Phrase .whole} (ih : Completes close t) :
    Completes close (.group t) := by
  intro w rest a hw _
  obtain ⟨opening, w, rfl, hopening, hw⟩ := List.map_eq_cons_iff.mp hw
  obtain ⟨wt, closing, wn, rfl, ht, hclosing, hn⟩ := exists_split hw
  obtain rfl := List.map_eq_nil_iff.mp hn
  have hclosed : Closed (closing :: rest) := closed_cons (by simp [hclosing, closers]) rest
  have hinner : (wt ++ [closing]) ++ rest = wt ++ closing :: rest := by simp
  have hparen : (front close (opening :: (wt ++ closing :: rest))).kind = .symbol .parenOpen :=
    hopening
  have hgroup : (expect .closeGroup).run close (closing :: rest) = ⟨true, rest, []⟩ :=
    run_expect_ok hclosing
  have hreads := ih.reads_whole ht hclosed a
  rw [List.cons_append, hinner, run_primary_group hparen]
  simp only [List.tail_cons, hreads.rest_eq hclosed, hgroup, List.append_nil]
  exact ⟨hreads.only, hreads.clean, hreads.value, Or.inl rfl⟩

theorem completes_last {t : Phrase .whole} (ih : Completes close t) :
    Completes close (.last t) := by
  intro w rest a hw hrest
  have hclosed : Closed rest := by
    intro head hhead
    cases rest with
    | nil => cases hhead
    | cons first rest =>
        obtain rfl := Option.some.inj hhead
        have hkind : first.kind = .symbol .parenClose := hrest
        simp [hkind, closers]
  have hreads := ih.reads_whole hw hclosed a
  have hcomma : commaNext rest = false := by
    cases rest with
    | nil => rfl
    | cons first rest =>
        have hkind : first.kind = .symbol .parenClose := hrest
        simp [commaNext, hkind]
  rw [run_commaSeparated]
  simp only [hreads.rest_eq hclosed, hcomma, Bool.false_eq_true, if_false]
  refine ⟨trivial, hreads.only, hreads.clean, fun hclean => ?_⟩
  rw [Expr.bareAll, hreads.value hclean]
  rfl

theorem completes_more {t : Phrase .whole} {args : Phrase .arguments} (iht : Completes close t)
    (ihargs : Completes close args) : Completes close (.more t args) := by
  intro w rest a hw hrest
  obtain ⟨wt, comma, wa, rfl, ht, hcomma, ha⟩ := exists_split hw
  have hclosed : Closed (comma :: (wa ++ rest)) := closed_cons (by simp [hcomma, closers]) _
  have hreads := iht.reads_whole ht hclosed a
  have hnext : commaNext (comma :: (wa ++ rest)) = true := by simp [commaNext, hcomma]
  obtain ⟨hbehind, honly, hclean, hvalue⟩ := ihargs wa rest a ha hrest
  rw [List.append_assoc, List.cons_append, run_commaSeparated]
  simp only [hreads.rest_eq hclosed, hnext, if_true, List.tail_cons]
  refine ⟨hbehind, hreads.only.append honly, ?_, fun hnil => ?_⟩
  · rw [List.append_eq_nil_iff, hreads.clean, hclean]
    exact Nat.max_le.symm
  · obtain ⟨hnil, hnil'⟩ := List.append_eq_nil_iff.mp hnil
    rw [Expr.bareAll, hreads.value hnil, hvalue hnil']
    rfl

theorem completes (close : Position) {f : Form} (t : Phrase f) : Completes close t := by
  induction t with
  | operand t ih => exact completes_operand ih
  | tighter t ih => exact completes_tighter ih
  | operation op level l r ihl ihr => exact completes_operation op level ihl ihr
  | signed op t ih => exact completes_signed op ih
  | unsigned t ih => exact completes_unsigned ih
  | object t ih => exact completes_object ih
  | member t n ih => exact completes_member n ih
  | index t i iht ihi => exact completes_index iht ihi
  | slice t i j iht ihi ihj => exact completes_slice iht ihi ihj
  | literal value => exact completes_literal value
  | name n => exact completes_name n
  | call n => exact completes_call n
  | callWith n args ih => exact completes_callWith n ih
  | group t ih => exact completes_group ih
  | last t ih => exact completes_last ih
  | more t args iht ihargs => exact completes_more iht ihargs

end WireSpec.Grammar
