import WireSpec.Formula.Eval
/-!
# What a formula refers to

The value of a formula depends on the slots whose places occur in it, and on the input only where
the formula names it.  A formula whose places all have slots has the same value whatever slots come
behind these, and where it has none over an input, that is due to an operator in it.
-/

namespace WireSpec

namespace Formula

/-- The places of all fields that occur in a formula, from left to right. -/
def places : Formula → List Nat
  | const _ | input => []
  | field i => [i]
  | unary _ e | length e | call _ _ e => e.places
  | binary _ l r | index l r => l.places ++ r.places
  | slice o s e => o.places ++ s.places ++ e.places

/-- Whether the whole message occurs in a formula. -/
def usesInput : Formula → Bool
  | const _ | field _ => false
  | input => true
  | unary _ e | length e | call _ _ e => e.usesInput
  | binary _ l r | index l r => l.usesInput || r.usesInput
  | slice o s e => o.usesInput || s.usesInput || e.usesInput

/-- All fields of a formula stand before a place. -/
def Within (f : Formula) (bound : Nat) : Prop := ∀ i ∈ f.places, i < bound

theorem Within.mono {f : Formula} {m n : Nat} (h : f.Within m) (hmn : m ≤ n) : f.Within n :=
  fun i hi => Nat.lt_of_lt_of_le (h i hi) hmn

theorem within_binary {op : BinaryOp} {l r : Formula} {bound : Nat} :
    (binary op l r).Within bound ↔ l.Within bound ∧ r.Within bound := List.forall_mem_append

theorem within_index {o i : Formula} {bound : Nat} :
    (index o i).Within bound ↔ o.Within bound ∧ i.Within bound := List.forall_mem_append

theorem within_slice {o s e : Formula} {bound : Nat} :
    (slice o s e).Within bound ↔ (o.Within bound ∧ s.Within bound) ∧ e.Within bound :=
  List.forall_mem_append.trans (and_congr_left fun _ => List.forall_mem_append)

/-- Two environments that a formula cannot tell apart. -/
structure Agree (f : Formula) (env env' : Env) : Prop where
  input : f.usesInput = true → env.input = env'.input
  slots : ∀ i ∈ f.places, slotValue env.slots i = slotValue env'.slots i

namespace Agree

variable {f g : Formula} {env env' : Env}

theorem part (h : g.Agree env env') (huses : f.usesInput = true → g.usesInput = true)
    (hplaces : f.places ⊆ g.places) : f.Agree env env' :=
  ⟨fun hf => h.input (huses hf), fun i hi => h.slots i (hplaces hi)⟩

end Agree

theorem eval_binary_congr (op : BinaryOp) {l r l' r' : Formula} {env env' : Env}
    (hl : l.eval env = l'.eval env') (hr : r.eval env = r'.eval env') :
    (binary op l r).eval env = (binary op l' r').eval env' := by
  cases op <;> simp only [eval, hl, hr]

/-- A formula has one value in environments that agree on what it refers to. -/
theorem eval_congr {f : Formula} {env env' : Env} (h : f.Agree env env') :
    f.eval env = f.eval env' := by
  induction f with
  | const v => rfl
  | field i => exact h.slots i (by simp [places])
  | input => simp only [eval, h.input rfl]
  | unary op e ih => simp only [eval, ih (h.part id (List.Subset.refl _))]
  | binary op l r ihl ihr =>
      refine eval_binary_congr op (ihl (h.part ?_ ?_)) (ihr (h.part ?_ ?_)) <;>
        simp +contextual [usesInput, places]
  | length e ih => simp only [eval, ih (h.part id (List.Subset.refl _))]
  | index o i iho ihi =>
      have ho : o.Agree env env' := h.part (by simp +contextual [usesInput]) (by simp [places])
      have hi : i.Agree env env' := h.part (by simp +contextual [usesInput]) (by simp [places])
      simp only [eval, iho ho, ihi hi]
  | slice o s e iho ihs ihe =>
      have ho : o.Agree env env' := h.part (by simp +contextual [usesInput]) (by simp [places])
      have hs : s.Agree env env' := h.part (by simp +contextual [usesInput]) (by simp [places])
      have he : e.Agree env env' := h.part (by simp +contextual [usesInput]) (by simp [places])
      simp only [eval, iho ho, ihs hs, ihe he]
  | call name function e ih => simp only [eval, ih (h.part id (List.Subset.refl _))]

theorem slotValue_append {slots : List (Option Value)} {i : Nat} (hi : i < slots.length)
    (more : List (Option Value)) : slotValue (slots ++ more) i = slotValue slots i := by
  simp only [slotValue, List.getElem?_append_left hi]

/-- Slots behind those that a formula refers to do not count. -/
theorem eval_append {f : Formula} {input : Option Bytes} {slots : List (Option Value)}
    (h : f.Within slots.length) (more : List (Option Value)) :
    f.eval ⟨input, slots ++ more⟩ = f.eval ⟨input, slots⟩ :=
  eval_congr ⟨fun _ => rfl, fun i hi => slotValue_append (h i hi) more⟩

/-- A formula that does not name the input has the same value for every input. -/
theorem eval_eq_of_not_usesInput {f : Formula} (h : f.usesInput = false)
    (input input' : Option Bytes) (slots : List (Option Value)) :
    f.eval ⟨input, slots⟩ = f.eval ⟨input', slots⟩ :=
  eval_congr ⟨by simp [h], fun _ _ => rfl⟩

/-! ### Errors of references -/

end Formula

/-- The error is about what a formula refers to: the whole message, or a field without a slot. -/
def EvalError.IsUnbound : EvalError → Prop
  | noInput | undecoded _ => True
  | _ => False

/-- Where there is no value, that is not due to a reference. -/
def NeverUnbound {α : Type} (result : Except EvalError α) : Prop :=
  ∀ e, result = .error e → ¬e.IsUnbound

@[simp] theorem neverUnbound_ok {α : Type} (x : α) : NeverUnbound (.ok x) := by
  intro e h
  cases h

@[simp] theorem neverUnbound_error {α : Type} {e : EvalError} :
    NeverUnbound (.error e : Except EvalError α) ↔ ¬e.IsUnbound := by
  simp [NeverUnbound]

theorem NeverUnbound.bind {α β : Type} {x : Except EvalError α} {f : α → Except EvalError β}
    (hx : NeverUnbound x) (hf : ∀ a, NeverUnbound (f a)) : NeverUnbound (x >>= f) := by
  cases x with
  | error e => exact neverUnbound_error.mpr (neverUnbound_error.mp hx)
  | ok a => exact hf a

namespace Formula

theorem neverUnbound_unaryOp (op : UnaryOp) (v : Operand) : NeverUnbound (unaryOp op v) := by
  fun_cases unaryOp op v <;> simp [EvalError.IsUnbound]

theorem neverUnbound_arithmetic (op : BinaryOp) (l r : Operand) :
    NeverUnbound (arithmetic op l r) := by
  fun_cases arithmetic op l r with
  | case1 a b => fun_cases integerArithmetic op a b <;> simp [EvalError.IsUnbound]
  | case2 => exact neverUnbound_ok _
  | case3 => simp [EvalError.IsUnbound]

theorem neverUnbound_shift (f : Int128 → Nat → Int128) (a b : Int128) :
    NeverUnbound (shift f a b) := by
  fun_cases shift f a b <;> simp [EvalError.IsUnbound]

theorem neverUnbound_bitwise (op : BinaryOp) (l r : Operand) : NeverUnbound (bitwise op l r) := by
  fun_cases bitwise op l r <;> simp [EvalError.IsUnbound, neverUnbound_shift]

theorem neverUnbound_comparison (op : BinaryOp) (l r : Operand) :
    NeverUnbound (comparison op l r) := by
  fun_cases comparison op l r <;> simp [EvalError.IsUnbound]

theorem neverUnbound_binaryOp (op : BinaryOp) (l r : Operand) :
    NeverUnbound (binaryOp op l r) := by
  fun_cases binaryOp op l r <;>
    simp [neverUnbound_arithmetic, neverUnbound_bitwise, neverUnbound_comparison]

theorem neverUnbound_expectInt (role : Role) (v : Operand) : NeverUnbound (expectInt role v) := by
  fun_cases expectInt role v <;> simp [EvalError.IsUnbound]

theorem neverUnbound_sequenceFor (role : Role) (v : Operand) :
    NeverUnbound (sequenceFor role v) := by
  fun_cases sequenceFor role v <;> simp [EvalError.IsUnbound]

theorem neverUnbound_indexable (v : Operand) : NeverUnbound (indexable v) := by
  fun_cases indexable v <;> simp [EvalError.IsUnbound]

theorem neverUnbound_byteAt (s : Bytes) (i : Int128) : NeverUnbound (byteAt s i) := by
  fun_cases byteAt s i <;> simp [EvalError.IsUnbound]

theorem neverUnbound_bytesBetween (s : Bytes) (start stop : Int128) :
    NeverUnbound (bytesBetween s start stop) := by
  fun_cases bytesBetween s start stop <;> simp [EvalError.IsUnbound]

theorem neverUnbound_slotValue {slots : List (Option Value)} {i : Nat} (hi : i < slots.length) :
    NeverUnbound (slotValue slots i) := by
  unfold slotValue
  rw [List.getElem?_eq_getElem hi]
  cases slots[i] <;> exact neverUnbound_ok _

/-- Over an input, only operators make a formula fail whose fields all have slots. -/
theorem neverUnbound_eval {f : Formula} {input : Bytes} {slots : List (Option Value)}
    (h : f.Within slots.length) : NeverUnbound (f.eval ⟨some input, slots⟩) := by
  -- The cases follow evaluation, in which `&&` and `||` differ from the other binary operators.
  fun_induction eval ⟨some input, slots⟩ f with
  | case1 => exact neverUnbound_ok _
  | case2 i => exact neverUnbound_slotValue (h i (by simp [places]))
  | case3 => exact neverUnbound_ok _
  | case4 hinput => cases hinput
  | case5 op e ih => exact (ih h).bind fun v => neverUnbound_unaryOp op v
  | case6 l r ihl ihr =>
      obtain ⟨hl, hr⟩ := within_binary.mp h
      refine (ihl hl).bind fun a => ?_
      split
      · exact (ihr hr).bind fun b => neverUnbound_ok _
      · exact neverUnbound_ok _
  | case7 l r ihl ihr =>
      obtain ⟨hl, hr⟩ := within_binary.mp h
      refine (ihl hl).bind fun a => ?_
      split
      · exact neverUnbound_ok _
      · exact (ihr hr).bind fun b => neverUnbound_ok _
  | case8 op l r _ _ ihl ihr =>
      obtain ⟨hl, hr⟩ := within_binary.mp h
      exact (ihl hl).bind fun a => (ihr hr).bind fun b => neverUnbound_binaryOp op a b
  | case9 e ih =>
      refine (ih h).bind fun v => ?_
      exact (neverUnbound_sequenceFor .length v).bind fun s => neverUnbound_ok _
  | case10 o i iho ihi =>
      obtain ⟨ho, hi⟩ := within_index.mp h
      refine (iho ho).bind fun object => (ihi hi).bind fun v => ?_
      refine (neverUnbound_expectInt .index v).bind fun position => ?_
      exact (neverUnbound_indexable object).bind fun s => neverUnbound_byteAt s position
  | case11 o s e iho ihs ihe =>
      obtain ⟨⟨ho, hs⟩, he⟩ := within_slice.mp h
      refine (iho ho).bind fun object => (ihs hs).bind fun v => ?_
      refine (neverUnbound_expectInt .sliceStart v).bind fun start => (ihe he).bind fun w => ?_
      refine (neverUnbound_expectInt .sliceEnd w).bind fun stop => ?_
      exact (neverUnbound_indexable object).bind fun b => neverUnbound_bytesBetween b start stop
  | case12 name function e ih =>
      refine (ih h).bind fun v => ?_
      exact (neverUnbound_sequenceFor (.call name) v).bind fun s => neverUnbound_ok _

end Formula

end WireSpec
