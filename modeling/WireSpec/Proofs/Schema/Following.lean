import WireSpec.Proofs.Schema.Grammar
import WireSpec.Proofs.Schema.Runs
/-!
# What can stand behind an expression

Reading an expression ends at a token that cannot continue it.  Where the allowance is used up, the
rest of the expression is passed over instead, and that ends at the same token: the brackets of a
phrase are balanced, and its commas and `..` lie between brackets.
-/

namespace WireSpec.Grammar

open Expression WireSpec.Parser Skip

/-- The tokens that end an expression wherever it stands. -/
def closers : List TokenKind :=
  [.symbol .parenClose, .symbol .bracketClose, .symbol .comma, .symbol .dotDot,
    .symbol .semicolon, .symbol .braceOpen, .symbol .braceClose, .endOfInput]

/-- An expression in front of these tokens is at its end. -/
def Closed (tokens : List Token) : Prop := ∀ t ∈ tokens.head?, t.kind ∈ closers

/-- These tokens do not continue a phrase of the `k` tightest levels in front of them. -/
structure Bounded (k : Nat) (close : Position) (tokens : List Token) : Prop where
  not_call : (front close tokens).kind ≠ .symbol .parenOpen
  not_member : (front close tokens).kind ≠ .symbol .dot
  not_index : (front close tokens).kind ≠ .symbol .bracketOpen
  not_operator : ∀ op, operatorLevel op < k →
    (front close tokens).kind ≠ .symbol (operatorSymbol op)

variable {close : Position} {tokens rest : List Token} {k : Nat}

theorem Bounded.mono {j : Nat} (h : Bounded k close tokens) (hjk : j ≤ k) :
    Bounded j close tokens :=
  ⟨h.not_call, h.not_member, h.not_index,
    fun op hop => h.not_operator op (Nat.lt_of_lt_of_le hop hjk)⟩

theorem operatorSymbol_injective {op op' : BinaryOp}
    (h : operatorSymbol op = operatorSymbol op') : op = op' := by
  have hlookup (op : BinaryOp) : precedence.flatten.lookup (operatorSymbol op) = some op := by
    cases op <;> rfl
  exact Option.some.inj (by rw [← hlookup op, h, hlookup op'])

theorem bounded_operator (op : BinaryOp) {head : Token}
    (h : head.kind = .symbol (operatorSymbol op)) :
    Bounded (operatorLevel op) close (head :: rest) := by
  refine ⟨?_, ?_, ?_, ?_⟩
  · cases op <;> simp [front, h, operatorSymbol]
  · cases op <;> simp [front, h, operatorSymbol]
  · cases op <;> simp [front, h, operatorSymbol]
  · intro other hlevel hother
    have hsymbol : operatorSymbol op = operatorSymbol other := by simpa [front, h] using hother
    rw [operatorSymbol_injective hsymbol] at hlevel
    exact Nat.lt_irrefl _ hlevel

theorem Closed.front_mem (h : Closed tokens) (close : Position) :
    (front close tokens).kind ∈ closers := by
  cases tokens with
  | nil => simp [front, closers]
  | cons head rest => exact h head rfl

theorem ne_operator_of_mem_closers {kind : TokenKind} (h : kind ∈ closers) (op : BinaryOp) :
    kind ≠ .symbol (operatorSymbol op) := by
  rintro rfl
  cases op <;> simp [closers, operatorSymbol] at h

theorem Closed.bounded (h : Closed tokens) (k : Nat) (close : Position) :
    Bounded k close tokens := by
  have hfront := h.front_mem close
  refine ⟨?_, ?_, ?_, fun op _ => ne_operator_of_mem_closers hfront op⟩
  · intro heq
    simp [heq, closers] at hfront
  · intro heq
    simp [heq, closers] at hfront
  · intro heq
    simp [heq, closers] at hfront

/-! ### Passing over the rest -/

theorem mem_closers_of_stopBefore {depth : Nat} {kind : TokenKind}
    (h : subexpression depth kind = .stopBefore) : kind ∈ closers := by
  unfold subexpression at h
  split at h <;> simp_all [closers]

theorem stopBefore_of_mem_closers {kind : TokenKind} (h : kind ∈ closers) :
    subexpression 0 kind = .stopBefore := by
  unfold subexpression
  split <;> simp_all [closers]

theorem subexpression_ne_stopBehind (depth : Nat) (kind : TokenKind) :
    subexpression depth kind ≠ .stopBehind := by
  unfold subexpression
  split <;> (try split) <;> simp

theorem Closed.past_eq (h : Closed tokens) : past subexpression 0 tokens = tokens := by
  cases tokens with
  | nil => rfl
  | cons head rest => simp [past, stopBefore_of_mem_closers (h head rfl)]

theorem closed_past (depth : Nat) (tokens : List Token) :
    Closed (past subexpression depth tokens) := by
  fun_induction past subexpression depth tokens with
  | case1 => simp [Closed]
  | case2 depth token rest hstop =>
      intro t ht
      obtain rfl := Option.some.inj ht
      exact mem_closers_of_stopBefore hstop
  | case3 depth token rest hstop => exact absurd hstop (subexpression_ne_stopBehind _ _)
  | case4 _ _ _ _ _ ih => exact ih

/-- The tokens inside a phrase that are neither brackets nor separators. -/
def IsPlain (kind : TokenKind) : Prop := ∀ depth, subexpression depth kind = .goOn depth

theorem isPlain_name (n : Name) : IsPlain n.kind := by
  intro depth
  cases n <;> rfl

theorem isPlain_literal (value : Literal) : IsPlain (literalKind value) := by
  intro depth
  cases value with
  | bool b => cases b <;> rfl
  | integer | float | string | char | null => rfl

theorem isPlain_prefix (op : UnaryOp) : IsPlain (.symbol (prefixSymbol op)) := by
  intro depth
  cases op <;> rfl

theorem isPlain_operator (op : BinaryOp) : IsPlain (.symbol (operatorSymbol op)) := by
  intro depth
  cases op <;> rfl

theorem isPlain_dot : IsPlain (.symbol .dot) := fun _ => rfl

theorem past_plain {head : Token} (h : IsPlain head.kind) (depth : Nat) :
    past subexpression depth (head :: rest) = past subexpression depth rest := by
  simp [past, h depth]

theorem past_open {head : Token} (depth : Nat)
    (h : head.kind = .symbol .parenOpen ∨ head.kind = .symbol .bracketOpen) :
    past subexpression depth (head :: rest) = past subexpression (depth + 1) rest := by
  rcases h with h | h <;> simp [past, h, subexpression]

theorem past_close {head : Token} (depth : Nat)
    (h : head.kind = .symbol .parenClose ∨ head.kind = .symbol .bracketClose) :
    past subexpression (depth + 1) (head :: rest) = past subexpression depth rest := by
  rcases h with h | h <;> simp [past, h, subexpression]

theorem past_separator {head : Token} (depth : Nat)
    (h : head.kind = .symbol .comma ∨ head.kind = .symbol .dotDot) :
    past subexpression (depth + 1) (head :: rest) = past subexpression (depth + 1) rest := by
  rcases h with h | h <;> simp [past, h, subexpression]

theorem exists_split {w : List Token} {before behind : List TokenKind} {kind : TokenKind}
    (h : w.map (·.kind) = before ++ kind :: behind) :
    ∃ wb head wr, w = wb ++ head :: wr ∧ wb.map (·.kind) = before ∧ head.kind = kind ∧
      wr.map (·.kind) = behind := by
  obtain ⟨wb, w', rfl, hbefore, h⟩ := List.map_eq_append_iff.mp h
  obtain ⟨head, wr, rfl, hhead, hbehind⟩ := List.map_eq_cons_iff.mp h
  exact ⟨wb, head, wr, rfl, hbefore, hhead, hbehind⟩

theorem exists_singleton {w : List Token} {kind : TokenKind} (h : w.map (·.kind) = [kind]) :
    ∃ head, w = [head] ∧ head.kind = kind :=
  List.map_eq_singleton_iff.mp h

/-- A phrase is passed over whole.  Arguments have commas, so they have to be inside of brackets. -/
theorem past_phrase {f : Form} (t : Phrase f) {w : List Token} (hw : w.map (·.kind) = t.word)
    (depth : Nat) (hdepth : f = .arguments → 0 < depth) (rest : List Token) :
    past subexpression depth (w ++ rest) = past subexpression depth rest := by
  induction t generalizing w depth rest with
  | operand t ih | unsigned t ih | object t ih => exact ih hw depth (by simp) rest
  | tighter t ih | last t ih => exact ih hw depth (by simp) rest
  | operation op level l r ihl ihr =>
      obtain ⟨wl, head, wr, rfl, hl, hhead, hr⟩ := exists_split hw
      rw [List.append_assoc, ihl hl depth (by simp), List.cons_append,
        past_plain (hhead ▸ isPlain_operator op), ihr hr depth (by simp)]
  | signed op t ih =>
      obtain ⟨head, w, rfl, hhead, hw⟩ := List.map_eq_cons_iff.mp hw
      rw [List.cons_append, past_plain (hhead ▸ isPlain_prefix op), ih hw depth (by simp)]
  | member t n ih =>
      obtain ⟨wt, dot, w', rfl, ht, hdot, hw'⟩ := exists_split hw
      obtain ⟨name, rfl, hname⟩ := exists_singleton hw'
      rw [List.append_assoc, ih ht depth (by simp), List.cons_append,
        past_plain (hdot ▸ isPlain_dot), List.singleton_append,
        past_plain (hname ▸ isPlain_name n)]
  | index t i iht ihi =>
      rw [Phrase.word, List.append_assoc, List.cons_append] at hw
      obtain ⟨wt, opening, w', rfl, ht, hopening, hw'⟩ := exists_split hw
      obtain ⟨wi, closing, wn, rfl, hi, hclosing, hn⟩ := exists_split hw'
      obtain rfl := List.map_eq_nil_iff.mp hn
      rw [List.append_assoc, iht ht depth (by simp), List.cons_append,
        past_open depth (Or.inr hopening), List.append_assoc, ihi hi (depth + 1) (by simp),
        List.singleton_append, past_close depth (Or.inr hclosing)]
  | slice t i j iht ihi ihj =>
      rw [Phrase.word, List.append_assoc, List.append_assoc, List.cons_append, List.cons_append]
        at hw
      obtain ⟨wt, opening, w', rfl, ht, hopening, hw'⟩ := exists_split hw
      obtain ⟨wi, dots, w', rfl, hi, hdots, hw'⟩ := exists_split hw'
      obtain ⟨wj, closing, wn, rfl, hj, hclosing, hn⟩ := exists_split hw'
      obtain rfl := List.map_eq_nil_iff.mp hn
      rw [List.append_assoc, iht ht depth (by simp), List.cons_append,
        past_open depth (Or.inr hopening), List.append_assoc, ihi hi (depth + 1) (by simp),
        List.cons_append, past_separator depth (Or.inr hdots), List.append_assoc,
        ihj hj (depth + 1) (by simp), List.singleton_append,
        past_close depth (Or.inr hclosing)]
  | literal value =>
      obtain ⟨head, rfl, hhead⟩ := exists_singleton hw
      exact past_plain (hhead ▸ isPlain_literal value) depth
  | name n =>
      obtain ⟨head, rfl, hhead⟩ := exists_singleton hw
      exact past_plain (hhead ▸ isPlain_name n) depth
  | call n =>
      obtain ⟨name, w, rfl, hname, hw⟩ := List.map_eq_cons_iff.mp hw
      obtain ⟨opening, w, rfl, hopening, hw⟩ := List.map_eq_cons_iff.mp hw
      obtain ⟨closing, rfl, hclosing⟩ := exists_singleton hw
      rw [List.cons_append, past_plain (hname ▸ isPlain_name n), List.cons_append,
        past_open depth (Or.inl hopening), List.singleton_append,
        past_close depth (Or.inl hclosing)]
  | callWith n args ih =>
      obtain ⟨name, w, rfl, hname, hw⟩ := List.map_eq_cons_iff.mp hw
      obtain ⟨opening, w, rfl, hopening, hw⟩ := List.map_eq_cons_iff.mp hw
      obtain ⟨wa, closing, wn, rfl, ha, hclosing, hn⟩ := exists_split hw
      obtain rfl := List.map_eq_nil_iff.mp hn
      rw [List.cons_append, past_plain (hname ▸ isPlain_name n), List.cons_append,
        past_open depth (Or.inl hopening), List.append_assoc,
        ih ha (depth + 1) (fun _ => Nat.succ_pos depth), List.singleton_append,
        past_close depth (Or.inl hclosing)]
  | group t ih =>
      obtain ⟨opening, w, rfl, hopening, hw⟩ := List.map_eq_cons_iff.mp hw
      obtain ⟨wt, closing, wn, rfl, ht, hclosing, hn⟩ := exists_split hw
      obtain rfl := List.map_eq_nil_iff.mp hn
      rw [List.cons_append, past_open depth (Or.inl hopening), List.append_assoc,
        ih ht (depth + 1) (by simp), List.singleton_append, past_close depth (Or.inl hclosing)]
  | more t args iht ihargs =>
      -- The comma does not end the passing over, since the parenthesis of the call is open.
      obtain ⟨depth, rfl⟩ := Nat.exists_eq_succ_of_ne_zero (Nat.pos_iff_ne_zero.mp (hdepth rfl))
      obtain ⟨wt, comma, wa, rfl, ht, hcomma, ha⟩ := exists_split hw
      rw [List.append_assoc, iht ht (depth + 1) (by simp), List.cons_append,
        past_separator depth (Or.inl hcomma), ihargs ha (depth + 1) hdepth]

end WireSpec.Grammar
