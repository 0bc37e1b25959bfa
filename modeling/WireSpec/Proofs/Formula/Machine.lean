import WireSpec.Formula.Eval
/-!
# Formulas on a machine

A machine adds numbers of a limited size, shifts by less than that size, and takes bytes only from
where there are any; everything else traps.  Formulas are evaluated here by such steps alone.  No
formula ever traps, and the machine comes to the value or the error that the formula has.
-/

namespace WireSpec

/-- What ends a run without an answer. -/
inductive Trap where
  | overflow
  | badShift
  | outOfBounds
  | wrongSize
  | wideNumeral
  deriving DecidableEq, Repr

/-- A run gives a result or an error, if it does not trap. -/
abbrev Run (ε α : Type) : Type := ExceptT ε (Except Trap) α

namespace Run

variable {ε δ α β : Type}

/-- What a run comes to that does not trap. -/
def done (x : Except ε α) : Run ε α := ExceptT.mk (.ok x)

/-- A step of the machine, which has no errors. -/
def step (x : Except Trap α) : Run ε α := ExceptT.lift x

theorem bind_eq_done {x : Run ε α} {y : Except ε α} {f : α → Run ε β} {g : α → Except ε β}
    (hx : x = done y) (hf : ∀ a, y = .ok a → f a = done (g a)) : x >>= f = done (y >>= g) := by
  subst hx
  cases y with
  | error e => rfl
  | ok a => exact hf a rfl

@[simp] theorem done_ok (a : α) : (done (.ok a) : Run ε α) = pure a := rfl

@[simp] theorem done_error (e : ε) : (done (.error e) : Run ε α) = throw e := rfl

@[simp] theorem step_ok (a : α) : (step (.ok a) : Run ε α) = pure a := rfl

end Run

/-! ### Steps of the machine -/

namespace Machine

def subtract (a b : Nat) : Except Trap Nat :=
  if b ≤ a then .ok (a - b) else .error .overflow

/-- The sum of a length and a position; a length is a number of 64 bits. -/
def addToLength (length : Nat) (position : Int) : Except Trap Int :=
  if Int128.InRange ((UInt64.ofNat length).toNat + position) then .ok (length + position)
  else .error .overflow

def shift (f : Int128 → Nat → Int128) (x : Int128) (amount : Nat) : Except Trap Int128 :=
  if amount < 128 then .ok (f x amount) else .error .badShift

def pick (s : Bytes) (place : Nat) : Except Trap UInt8 :=
  match s[place]? with
  | some b => .ok b
  | none => .error .outOfBounds

def cut (s : Bytes) (start stop : Nat) : Except Trap Bytes :=
  if start ≤ stop ∧ stop ≤ s.length then .ok ((s.take stop).drop start) else .error .outOfBounds

/-- Bytes of which a number with so many of them is read. -/
def exactly (size : Nat) (raw : Bytes) : Except Trap Bytes :=
  if raw.length = size then .ok raw else .error .wrongSize

theorem subtract_eq_ok {a b : Nat} (h : b ≤ a) : subtract a b = .ok (a - b) := if_pos h

theorem addToLength_eq_ok (length : Nat) {position : Int} (hlow : -Int128.bound ≤ position)
    (hhigh : position < 0) : addToLength length position = .ok (length + position) := by
  refine if_pos ⟨?_, ?_⟩
  · omega
  · have hlength := (UInt64.ofNat length).toNat_lt
    have hbound : (2 : Int) ^ 64 ≤ Int128.bound := by decide
    omega

theorem cut_eq_ok {s : Bytes} {start stop : Nat} (hstart : start ≤ stop) (hstop : stop ≤ s.length) :
    cut s start stop = .ok ((s.take stop).drop start) :=
  if_pos ⟨hstart, hstop⟩

theorem exactly_eq_ok {size : Nat} {raw : Bytes} (h : raw.length = size) :
    exactly size raw = .ok raw :=
  if_pos h

/-! ### Positions -/

def resolve? (position : Int) (length : Nat) : Except Trap (Option Nat) := do
  let resolved ← if position < 0 then addToLength length position else .ok position
  return if 0 ≤ resolved then some resolved.toNat else none

def sliceBounds? (start stop : Int) (length : Nat) : Except Trap (Option (Nat × Nat)) := do
  match ← resolve? start length with
  | none => return none
  | some low =>
      let high : Option Nat ← if stop < 0 then (·.map (· + 1)) <$> resolve? stop length
        else .ok (some stop.toNat)
      return high.bind fun high => if low ≤ high ∧ high ≤ length then some (low, high) else none

theorem resolve?_eq_ok (position : Int128) (length : Nat) :
    resolve? position.val length = .ok (Formula.resolve? position.val length) := by
  unfold resolve? Formula.resolve?
  by_cases hneg : position.val < 0
  · simp only [hneg, if_true, addToLength_eq_ok length position.property.1 hneg]
    rfl
  · simp only [hneg, if_false]
    rfl

theorem sliceBounds?_eq_ok (start stop : Int128) (length : Nat) :
    sliceBounds? start.val stop.val length =
      .ok (Formula.sliceBounds? start.val stop.val length) := by
  unfold sliceBounds? Formula.sliceBounds?
  rw [resolve?_eq_ok, resolve?_eq_ok]
  cases Formula.resolve? start.val length with
  | none => rfl
  | some low => split <;> rfl

end Machine

/-! ### Operators and sequences -/

namespace Formula

def runShift (f : Int128 → Nat → Int128) (a b : Int128) : Run EvalError Operand := do
  let amount ← .done (if 0 ≤ b.val ∧ b.val < 128 then .ok b.val.toNat else .error (.badShift b))
  return .int (← .step (Machine.shift f a amount))

/-- Arithmetic finds out by itself whether its result is out of range. -/
def runBinaryOp (op : BinaryOp) (l r : Operand) : Run EvalError Operand :=
  match op, l, r with
  | .shiftLeft, .int a, .int b => runShift .shiftLeft a b
  | .shiftRight, .int a, .int b => runShift .shiftRight a b
  | op, l, r => .done (binaryOp op l r)

def runByteAt (s : Bytes) (i : Int128) : Run EvalError Operand := do
  match ← .step (Machine.resolve? i.val s.length) with
  | some place =>
      if place < s.length then return .ofUInt64 (← .step (Machine.pick s place)).toUInt64
      else throw (.indexOutOfBounds i s.length)
  | none => throw (.indexOutOfBounds i s.length)

def runBytesBetween (s : Bytes) (start stop : Int128) : Run EvalError Operand := do
  match ← .step (Machine.sliceBounds? start.val stop.val s.length) with
  | some (low, high) => return .bytes (← .step (Machine.cut s low high))
  | none => throw (.sliceOutOfBounds start stop s.length)

/-- Evaluates a formula by steps of the machine. -/
def run (env : Env) : Formula → Run EvalError Operand
  | const c => return c
  | field i => .done (slotValue env.slots i)
  | input =>
      match env.input with
      | some b => return .bytes b
      | none => throw .noInput
  | unary op e => do .done (unaryOp op (← e.run env))
  | binary .and l r => do
      if (← l.run env).truthy then return .bool (← r.run env).truthy
      else return .bool false
  | binary .or l r => do
      if (← l.run env).truthy then return .bool true
      else return .bool (← r.run env).truthy
  | binary op l r => do
      let a ← l.run env
      let b ← r.run env
      runBinaryOp op a b
  | length e => do
      let s ← .done (sequenceFor .length (← e.run env))
      return .ofUInt64 (UInt64.ofNat s.length)
  | index o i => do
      let object ← o.run env
      let position ← .done (expectInt .index (← i.run env))
      let s ← .done (indexable object)
      runByteAt s position
  | slice o s e => do
      let object ← o.run env
      let start ← .done (expectInt .sliceStart (← s.run env))
      let stop ← .done (expectInt .sliceEnd (← e.run env))
      let bytes ← .done (indexable object)
      runBytesBetween bytes start stop
  | call name function e => do
      let s ← .done (sequenceFor (.call name) (← e.run env))
      return .ofUInt64 (function s)

theorem runShift_eq_done (f : Int128 → Nat → Int128) (a b : Int128) :
    runShift f a b = .done (shift f a b) := by
  unfold runShift shift
  by_cases hb : 0 ≤ b.val ∧ b.val < 128
  · have hamount : b.val.toNat < 128 := by omega
    simp [hb, Machine.shift, hamount]
  · rw [if_neg hb, if_neg hb]
    rfl

theorem runBinaryOp_eq_done (op : BinaryOp) (l r : Operand) :
    runBinaryOp op l r = .done (binaryOp op l r) := by
  unfold runBinaryOp
  split
  · exact runShift_eq_done _ _ _
  · exact runShift_eq_done _ _ _
  · rfl

theorem runByteAt_eq_done (s : Bytes) (i : Int128) : runByteAt s i = .done (byteAt s i) := by
  unfold runByteAt byteAt
  rw [Machine.resolve?_eq_ok, Run.step_ok, pure_bind]
  cases resolve? i.val s.length with
  | none => rfl
  | some place =>
      by_cases hlt : place < s.length
      · simp [Machine.pick, hlt]
      · simp [hlt]

theorem bounds_of_sliceBounds? {start stop : Int} {length low high : Nat}
    (h : sliceBounds? start stop length = some (low, high)) : low ≤ high ∧ high ≤ length := by
  obtain ⟨first, _, h⟩ := Option.bind_eq_some_iff.mp h
  have hbounds : ∀ {ends : Option Nat},
      (ends.bind fun last => if first ≤ last ∧ last ≤ length then some (first, last) else none) =
        some (low, high) → low ≤ high ∧ high ≤ length := by
    intro ends hends
    obtain ⟨last, _, hlast⟩ := Option.bind_eq_some_iff.mp hends
    split at hlast
    · rename_i hfits
      obtain ⟨rfl, rfl⟩ := Prod.mk.inj (Option.some.inj hlast)
      exact hfits
    · cases hlast
  dsimp only at h
  split at h <;> exact hbounds h

theorem runBytesBetween_eq_done (s : Bytes) (start stop : Int128) :
    runBytesBetween s start stop = .done (bytesBetween s start stop) := by
  unfold runBytesBetween bytesBetween
  rw [Machine.sliceBounds?_eq_ok, Run.step_ok, pure_bind]
  cases hbounds : sliceBounds? start.val stop.val s.length with
  | none => rfl
  | some bounds =>
      obtain ⟨low, high⟩ := bounds
      obtain ⟨hlow, hhigh⟩ := bounds_of_sliceBounds? hbounds
      simp [Machine.cut_eq_ok hlow hhigh]

/-- No formula traps, and the machine comes to its value or its error. -/
theorem run_eq_done (env : Env) (f : Formula) : f.run env = .done (f.eval env) := by
  induction f with
  | const c => rfl
  | field i => rfl
  | input =>
      unfold run eval
      cases env.input <;> rfl
  | unary op e ih => exact Run.bind_eq_done ih fun _ _ => rfl
  | binary op l r ihl ihr =>
      cases op
      case or =>
        apply Run.bind_eq_done ihl
        intro a _
        cases a.truthy
        · exact Run.bind_eq_done ihr fun _ _ => rfl
        · rfl
      case and =>
        apply Run.bind_eq_done ihl
        intro a _
        cases a.truthy
        · rfl
        · exact Run.bind_eq_done ihr fun _ _ => rfl
      all_goals
        exact Run.bind_eq_done ihl fun a _ => Run.bind_eq_done ihr fun b _ =>
          runBinaryOp_eq_done _ a b
  | length e ih => exact Run.bind_eq_done ih fun _ _ => Run.bind_eq_done rfl fun _ _ => rfl
  | index o i iho ihi =>
      apply Run.bind_eq_done iho
      intro object _
      apply Run.bind_eq_done ihi
      intro i _
      apply Run.bind_eq_done rfl
      intro position _
      exact Run.bind_eq_done rfl fun s _ => runByteAt_eq_done s position
  | slice o s e iho ihs ihe =>
      apply Run.bind_eq_done iho
      intro object _
      apply Run.bind_eq_done ihs
      intro s _
      apply Run.bind_eq_done rfl
      intro start _
      apply Run.bind_eq_done ihe
      intro e _
      apply Run.bind_eq_done rfl
      intro stop _
      exact Run.bind_eq_done rfl fun bytes _ => runBytesBetween_eq_done bytes start stop
  | call name function e ih =>
      exact Run.bind_eq_done ih fun _ _ => Run.bind_eq_done rfl fun _ _ => rfl

end Formula

end WireSpec
