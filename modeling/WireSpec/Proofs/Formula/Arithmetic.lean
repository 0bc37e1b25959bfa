import Mathlib
import WireSpec.Proofs.Formula.Places
/-!
# Integer arithmetic

Formulas of integers and of fields that hold integers, with the sign and the five operations.  Their
value over all integers is computed here by itself.  A formula evaluates to this value exactly if no
operation in it divides by zero or leaves the range of what is computed with.  Otherwise the first
operation that does so is the error, where operands come before their operation and the left one
before the right one.
-/

namespace WireSpec

/-! ### Integers in fields -/

namespace Value

/-- What formulas take as an integer: a number, or a character by its code point.  A truth value is
none, although it reads as one. -/
def IsIntegral : Value → Prop
  | int _ _ | char _ => True
  | float32 _ | float64 _ | bool _ | string _ | bytes _ | null => False

theorem IsIntegral.exists_ofValue_eq {v : Value} (h : v.IsIntegral) :
    ∃ x : Int128, Operand.ofValue v = .int x ∧ v.integer? = some x.val := by
  cases v with
  | int kind x => exact ⟨_, rfl, rfl⟩
  | char c => exact ⟨_, rfl, by simp [integer?, Int128.ofUInt64]⟩
  | float32 | float64 | bool | string | bytes | null => exact h.elim

end Value

/-- The field at a place is decoded and holds the integer. -/
def Env.Holds (env : Env) (place : Nat) (x : Int) : Prop :=
  ∃ v, env.slots[place]? = some (some v) ∧ v.IsIntegral ∧ v.integer? = some x

theorem Env.Holds.exists_slotValue_eq {env : Env} {place : Nat} {x : Int}
    (h : env.Holds place x) :
    ∃ y : Int128, Formula.slotValue env.slots place = .ok (.int y) ∧ y.val = x := by
  obtain ⟨v, hslot, hintegral, hx⟩ := h
  obtain ⟨y, hvalue, hy⟩ := hintegral.exists_ofValue_eq
  refine ⟨y, ?_, Option.some.inj (hy.symm.trans hx)⟩
  simp only [Formula.slotValue, hslot, hvalue]

/-! ### Values over all integers -/

inductive ArithmeticOp where
  | add | sub | mul | div | rem
  deriving DecidableEq, Repr

namespace ArithmeticOp

def operator : ArithmeticOp → BinaryOp
  | add => .add
  | sub => .sub
  | mul => .mul
  | div => .div
  | rem => .rem

/-- Division is toward zero.  What comes of dividing by zero is of no account. -/
def exact : ArithmeticOp → Int → Int → Int
  | add, x, y => x + y
  | sub, x, y => x - y
  | mul, x, y => x * y
  | div, x, y => x.tdiv y
  | rem, x, y => x.tmod y

/-- All that is computed for the result: a remainder comes with its quotient. -/
def results : ArithmeticOp → Int → Int → List Int
  | rem, x, y => [x.tdiv y, x.tmod y]
  | op, x, y => [op.exact x y]

theorem exact_mem_results (op : ArithmeticOp) (x y : Int) : op.exact x y ∈ op.results x y := by
  cases op <;> simp [exact, results]

end ArithmeticOp

/-- The tree of a formula of integer arithmetic. -/
inductive Arithmetic where
  | integer (x : Int128)
  | field (place : Nat)
  | negate (operand : Arithmetic)
  | operation (op : ArithmeticOp) (left right : Arithmetic)

namespace Arithmetic

def formula : Arithmetic → Formula
  | integer x => .const (.int x)
  | field place => .field place
  | negate e => .unary .negate e.formula
  | operation op l r => .binary op.operator l.formula r.formula

/-- The value over all integers, given those that the fields hold. -/
def exact (numbers : Nat → Int) : Arithmetic → Int
  | integer x => x.val
  | field place => numbers place
  | negate e => -e.exact numbers
  | operation op l r => op.exact (l.exact numbers) (r.exact numbers)

/-- All parts in the order in which they are evaluated, the whole being the last one. -/
def parts : Arithmetic → List Arithmetic
  | integer x => [integer x]
  | field place => [field place]
  | negate e => e.parts ++ [negate e]
  | operation op l r => l.parts ++ r.parts ++ [operation op l r]

/-! ### Faults of one part -/

/-- The last operation divides by zero. -/
def DividesByZero (numbers : Nat → Int) : Arithmetic → Prop
  | operation op _ r => (op = .div ∨ op = .rem) ∧ r.exact numbers = 0
  | integer _ | field _ | negate _ => False

instance (numbers : Nat → Int) : (e : Arithmetic) → Decidable (e.DividesByZero numbers)
  | operation _ _ _ => inferInstanceAs (Decidable (_ ∧ _))
  | integer _ | field _ | negate _ => inferInstanceAs (Decidable False)

/-- What the last operation computes. -/
def results (numbers : Nat → Int) : Arithmetic → List Int
  | operation op l r => op.results (l.exact numbers) (r.exact numbers)
  | e => [e.exact numbers]

/-- The text of the last operation. -/
def symbol : Arithmetic → String
  | negate _ => UnaryOp.negate.text
  | operation op _ _ => op.operator.text
  | integer _ | field _ => ""

/-- Nothing is wrong with the last operation on the exact values of its operands. -/
def Sound (numbers : Nat → Int) (e : Arithmetic) : Prop :=
  ¬e.DividesByZero numbers ∧ ∀ x ∈ e.results numbers, Int128.InRange x

instance (numbers : Nat → Int) (e : Arithmetic) : Decidable (e.Sound numbers) :=
  inferInstanceAs (Decidable (_ ∧ _))

/-- The error of the last operation where it is not sound. -/
def error (numbers : Nat → Int) (e : Arithmetic) : EvalError :=
  if e.DividesByZero numbers then .divisionByZero else .overflow e.symbol

def fault? (numbers : Nat → Int) (e : Arithmetic) : Option EvalError :=
  if e.Sound numbers then none else some (e.error numbers)

@[simp] theorem fault?_eq_none {numbers : Nat → Int} {e : Arithmetic} :
    e.fault? numbers = none ↔ e.Sound numbers := by
  simp [fault?]

theorem fault?_eq_some {numbers : Nat → Int} {e : Arithmetic} {error : EvalError} :
    e.fault? numbers = some error ↔ ¬e.Sound numbers ∧ error = e.error numbers := by
  simp [fault?, eq_comm]

/-- How an evaluation ends: with the first fault, or with the value where there is none. -/
def Ends (result : Except EvalError Operand) (first : Option EvalError) (x : Int) : Prop :=
  match first with
  | some error => result = .error error
  | none => ∃ v : Int128, result = .ok (.int v) ∧ v.val = x

theorem Ends.eq_ok_iff {result : Except EvalError Operand} {first : Option EvalError} {x : Int}
    {v : Operand} (h : Ends result first x) :
    result = .ok v ↔ first = none ∧ ∃ y : Int128, v = .int y ∧ y.val = x := by
  cases first with
  | some error =>
      obtain rfl : result = .error error := h
      simp
  | none =>
      obtain ⟨y, rfl, hy⟩ := h
      constructor
      · rintro ⟨⟩
        exact ⟨rfl, y, rfl, hy⟩
      · rintro ⟨-, z, rfl, hz⟩
        rw [Subtype.ext (hy.trans hz.symm)]

theorem Ends.eq_error_iff {result : Except EvalError Operand} {first : Option EvalError} {x : Int}
    {error : EvalError} (h : Ends result first x) : result = .error error ↔ first = some error := by
  cases first with
  | some error =>
      obtain rfl : result = .error error := h
      simp
  | none =>
      obtain ⟨y, rfl, hy⟩ := h
      simp

/-- What is computed of a result ends with the fault of the result before one of its own. -/
theorem Ends.bind {result : Except EvalError Operand} {first second : Option EvalError} {x y : Int}
    {step : Operand → Except EvalError Operand} (h : Ends result first x)
    (hstep : ∀ v : Int128, v.val = x → Ends (step (.int v)) second y) :
    Ends (result >>= step) (first.or second) y := by
  cases first with
  | some error =>
      obtain rfl : result = .error error := h
      rfl
  | none =>
      obtain ⟨v, rfl, hv⟩ := h
      exact hstep v hv

variable {numbers : Nat → Int}

theorem ends_integer (x : Int128) :
    Ends (.ok (.int x)) ((integer x).fault? numbers) ((integer x).exact numbers) := by
  have hsound : (integer x).Sound numbers := ⟨id, List.forall_mem_singleton.mpr x.property⟩
  rw [fault?_eq_none.mpr hsound]
  exact ⟨x, rfl, rfl⟩

theorem ends_field {env : Env} {place : Nat} (h : env.Holds place (numbers place)) :
    Ends (Formula.slotValue env.slots place) ((field place).fault? numbers) (numbers place) := by
  obtain ⟨y, hslot, hy⟩ := h.exists_slotValue_eq
  have hsound : (field place).Sound numbers := by
    refine ⟨id, List.forall_mem_singleton.mpr ?_⟩
    rw [exact, ← hy]
    exact y.property
  rw [fault?_eq_none.mpr hsound]
  exact ⟨y, hslot, hy⟩

theorem ends_negate {e : Arithmetic} {v : Int128} (hv : v.val = e.exact numbers) :
    Ends (Formula.unaryOp .negate (.int v)) ((negate e).fault? numbers)
      ((negate e).exact numbers) := by
  have hsound : (negate e).Sound numbers ↔ Int128.InRange (-e.exact numbers) :=
    (and_iff_right id).trans List.forall_mem_singleton
  simp only [Formula.unaryOp, Int128.ofInt?, fault?, hsound, hv]
  by_cases hrange : Int128.InRange (-e.exact numbers)
  · simp only [dif_pos hrange, if_pos hrange]
    exact ⟨_, rfl, rfl⟩
  · simp only [dif_neg hrange, if_neg hrange]
    rfl

theorem ofInt?_eq_some {x : Int} {y : Int128} : Int128.ofInt? x = some y ↔ y.val = x := by
  constructor
  · intro h
    unfold Int128.ofInt? at h
    split at h <;> cases h
    rfl
  · rintro rfl
    exact Int128.ofInt?_val y

/-- A result needs all that is computed for it to be in range, and is the exact one. -/
theorem integerResult?_eq_some {op : ArithmeticOp} {v w x : Int128} :
    Formula.integerResult? op.operator v w = some x ↔
      (∀ z ∈ op.results v.val w.val, Int128.InRange z) ∧ x.val = op.exact v.val w.val := by
  cases op with
  | rem =>
      simp only [Formula.integerResult?, ArithmeticOp.operator, ArithmeticOp.results,
        ArithmeticOp.exact]
      constructor
      · intro h
        split at h
        · rename_i hquotient
          have hx := ofInt?_eq_some.mp h
          have hremainder := x.property
          rw [hx] at hremainder
          exact ⟨List.forall_mem_cons.mpr ⟨hquotient, List.forall_mem_singleton.mpr hremainder⟩, hx⟩
        · cases h
      · rintro ⟨hrange, hx⟩
        rw [if_pos (List.forall_mem_cons.mp hrange).1]
        exact ofInt?_eq_some.mpr hx
  | add | sub | mul | div =>
      refine ofInt?_eq_some.trans (iff_and_self.mpr fun hx => List.forall_mem_singleton.mpr ?_)
      rw [ArithmeticOp.exact, ← hx]
      exact x.property

theorem ends_operation (op : ArithmeticOp) {l r : Arithmetic} {v w : Int128}
    (hv : v.val = l.exact numbers) (hw : w.val = r.exact numbers) :
    Ends (Formula.binaryOp op.operator (.int v) (.int w)) ((operation op l r).fault? numbers)
      ((operation op l r).exact numbers) := by
  have harithmetic : Formula.binaryOp op.operator (.int v) (.int w) =
      Formula.integerArithmetic op.operator v w := by
    cases op <;> rfl
  have hzero : (operation op l r).DividesByZero numbers ↔
      (Formula.divides op.operator && w.val == 0) = true := by
    cases op <;> simp [DividesByZero, Formula.divides, ArithmeticOp.operator, hw]
  rw [harithmetic]
  simp only [Formula.integerArithmetic, fault?, Sound, error, hzero, results, exact, ← hv, ← hw]
  split
  · rename_i hdivides
    rw [if_neg fun hsound => hsound.1 hdivides]
    rfl
  · rename_i hdivides
    cases hresult : Formula.integerResult? op.operator v w with
    | some x =>
        obtain ⟨hrange, hx⟩ := integerResult?_eq_some.mp hresult
        rw [if_pos ⟨hdivides, hrange⟩]
        exact ⟨x, rfl, hx⟩
    | none =>
        -- The exact result is one of those, so it would be there.
        have hrange : ¬∀ z ∈ op.results v.val w.val, Int128.InRange z := by
          intro hrange
          have hexact := hrange _ (op.exact_mem_results v.val w.val)
          have hsome : Formula.integerResult? op.operator v w = some ⟨_, hexact⟩ :=
            integerResult?_eq_some.mpr ⟨hrange, rfl⟩
          rw [hresult] at hsome
          cases hsome
        rw [if_neg fun hsound => hrange hsound.2]
        rfl

/-- A formula ends with the first fault of its parts, or else with its value over all integers. -/
theorem ends_eval {env : Env} (e : Arithmetic)
    (h : ∀ place ∈ e.formula.places, env.Holds place (numbers place)) :
    Ends (e.formula.eval env) (e.parts.findSome? (fault? numbers)) (e.exact numbers) := by
  induction e with
  | integer x =>
      rw [parts, List.findSome?_singleton]
      exact ends_integer x
  | field place =>
      rw [parts, List.findSome?_singleton]
      exact ends_field (h place List.mem_cons_self)
  | negate e ih =>
      rw [parts, List.findSome?_append, List.findSome?_singleton]
      exact (ih h).bind fun v hv => ends_negate hv
  | operation op l r ihl ihr =>
      obtain ⟨hl, hr⟩ := List.forall_mem_append.mp h
      have heval : (operation op l r).formula.eval env = (do
          let a ← l.formula.eval env
          let b ← r.formula.eval env
          Formula.binaryOp op.operator a b) := by
        cases op <;> rfl
      -- The first fault is one of the left operand, or else of the right one, or else of the
      -- operation, as in the order of evaluation.
      rw [heval, parts, List.findSome?_append, List.findSome?_append, List.findSome?_singleton,
        Option.or_assoc]
      exact (ihl hl).bind fun v hv => (ihr hr).bind fun w hw => ends_operation op hv hw

/-- A formula of integer arithmetic over decoded fields has a value exactly if none of its parts
divides by zero and all that they compute is in range; this is then its value over all integers.
Otherwise its error is that of the first part of which this does not hold. -/
theorem eval_formula_iff {env : Env} (e : Arithmetic)
    (h : ∀ place ∈ e.formula.places, env.Holds place (numbers place)) :
    (∀ v, e.formula.eval env = .ok v ↔
      (∀ p ∈ e.parts, ¬p.DividesByZero numbers ∧ ∀ x ∈ p.results numbers, Int128.InRange x) ∧
        ∃ x : Int128, v = .int x ∧ x.val = e.exact numbers) ∧
    (∀ failure, e.formula.eval env = .error failure ↔
      ∃ before p after, e.parts = before ++ p :: after ∧ ¬p.Sound numbers ∧
        failure = (if p.DividesByZero numbers then .divisionByZero else .overflow p.symbol) ∧
          ∀ q ∈ before, q.Sound numbers) := by
  have hends := ends_eval e h
  refine ⟨fun v => ?_, fun failure => ?_⟩
  · rw [hends.eq_ok_iff, List.findSome?_eq_none_iff]
    simp only [fault?_eq_none]
    exact Iff.rfl
  · rw [hends.eq_error_iff, List.findSome?_eq_some_iff]
    simp only [fault?_eq_none, fault?_eq_some, and_assoc]
    exact Iff.rfl

/-- A field with the number -1 and one with the letter A. -/
def signedFields : Env := ⟨none, [some (.int .i8 ⟨-1, by decide⟩), some (.char 'A')]⟩

def signedNumbers (place : Nat) : Int := [-1, 65].getD place 0

theorem signedFields_holds (place : Nat) (h : place < 2) :
    signedFields.Holds place (signedNumbers place) := by
  match place, h with
  | 0, _ => exact ⟨_, rfl, trivial, rfl⟩
  | 1, _ => exact ⟨_, rfl, trivial, rfl⟩

/-- The letter less -7, divided by -1. -/
def signedQuotient : Arithmetic :=
  operation .div (operation .sub (field 1) (negate (integer ⟨7, by decide⟩))) (field 0)

/-- The remainder of the least integer by -1, whose quotient is out of range. -/
def signedRemainder : Arithmetic := operation .rem (integer ⟨-2 ^ 127, by decide⟩) (field 0)

theorem inRange_zero : Int128.InRange 0 := by decide

/-- This remainder, and behind it a division by zero. -/
def signedSum : Arithmetic :=
  operation .add signedRemainder (operation .div (field 1) (integer ⟨0, inRange_zero⟩))

theorem eval_formula_iff_signed :
    (∀ place < 2, signedFields.Holds place (signedNumbers place)) ∧
      signedQuotient.formula.eval signedFields = .ok (.int ⟨-72, by decide⟩) ∧
        signedSum.formula.eval signedFields = .error (.overflow "%") := by
  refine ⟨signedFields_holds, ?_, ?_⟩
  · have hplaces : ∀ place ∈ signedQuotient.formula.places, place < 2 := by decide
    obtain ⟨hvalue, -⟩ := eval_formula_iff signedQuotient
      fun place hplace => signedFields_holds place (hplaces place hplace)
    exact (hvalue _).mpr ⟨by decide, _, rfl, by decide⟩
  · have hplaces : ∀ place ∈ signedSum.formula.places, place < 2 := by decide
    obtain ⟨-, herror⟩ := eval_formula_iff signedSum
      fun place hplace => signedFields_holds place (hplaces place hplace)
    exact (herror _).mpr
      ⟨[integer ⟨-2 ^ 127, by decide⟩, field 0], signedRemainder, _, rfl, by decide, rfl, by decide⟩

end Arithmetic

end WireSpec
