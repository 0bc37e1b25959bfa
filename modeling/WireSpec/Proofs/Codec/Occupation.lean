import Mathlib
import WireSpec.Codec.Decoder
import WireSpec.Proofs.Plan.Planned
/-!
# Where the fields of a message lie

`FieldPlan.Occupies` says, without running anything, what it means for a field to take the bytes
between two offsets of an input when all slots of the message are known.  Decoding field by field
finds exactly the slots and offsets of which this holds for every field: a formula has the same
value among the slots read so far as among all of them, because it refers to no later field.
-/

namespace WireSpec

theorem except_bind_eq_ok {ε α β : Type} {x : Except ε α} {f : α → Except ε β} {b : β} :
    x >>= f = .ok b ↔ ∃ a, x = .ok a ∧ f a = .ok b := by
  cases x with
  | error e => simp [bind, Except.bind]
  | ok a => simp [bind, Except.bind]

theorem except_bind_eq_error {ε α β : Type} {x : Except ε α} {f : α → Except ε β} {e : ε} :
    x >>= f = .error e ↔ x = .error e ∨ ∃ a, x = .ok a ∧ f a = .error e := by
  cases x with
  | error e' => simp [bind, Except.bind]
  | ok a => simp [bind, Except.bind]

theorem except_mapError_eq_ok {ε δ α : Type} {x : Except ε α} {f : ε → δ} {a : α} :
    x.mapError f = .ok a ↔ x = .ok a := by
  cases x <;> simp [Except.mapError]

theorem exists_eq_ok_of_any {ε α : Type} {x : Except ε α} {p : α → Bool}
    (h : x.toOption.any p = true) : ∃ a, x = .ok a ∧ p a = true := by
  cases x with
  | error e => cases h
  | ok a => exact ⟨a, rfl, h⟩

theorem eq_ok_of_toOption {ε α : Type} {x : Except ε α} {a : α} (h : x.toOption = some a) :
    x = .ok a := by
  cases x with
  | error e => cases h
  | ok b => exact congrArg Except.ok (Option.some.inj h)

namespace FieldPlan

/-- How many bytes a field takes that begins at an offset.  The value of a length formula is a size
only if it is a number of 64 bits without a sign. -/
def Takes (f : FieldPlan) (env : Env) (input : Bytes) (offset size : Nat) : Prop :=
  match f.width with
  | .fixed n => size = n
  | .remaining => size = input.length - offset
  | .dynamic e => ∃ n : Int128, e.eval env = .ok (.int n) ∧ IntKind.u64.Holds n.val ∧ n.val = size

/-- Both bounds of the range have values, and the value of the field compares with them and lies
between them. -/
def InRange (f : FieldPlan) (env : Env) (v : Value) : Prop :=
  ∀ r, f.range = some r → ∃ least greatest below above,
    r.least.eval env = .ok least ∧ r.greatest.eval env = .ok greatest ∧
      (Operand.ofValue v).order? least = some below ∧ below ≠ .lt ∧
        (Operand.ofValue v).order? greatest = some above ∧ above ≠ .gt

/-- The validation has a value that counts as true. -/
def Valid (f : FieldPlan) (env : Env) : Prop :=
  ∀ e, f.validate = some e → ∃ x, e.eval env = .ok x ∧ x.truthy = true

/-- What a field says of the bytes from `start` to `stop` and of its slot, all slots given.  An
optional field is absent exactly where no bytes are left. -/
def Occupies (f : FieldPlan) (input : Bytes) (slots : List (Option Value)) (start stop : Nat)
    (slot : Option Value) : Prop :=
  if f.optional = true ∧ input.length ≤ start then slot = none ∧ stop = start
  else ∃ v, slot = some v ∧ start ≤ stop ∧ stop ≤ input.length ∧
    f.Takes ⟨some input, slots⟩ input start (stop - start) ∧
    f.decode ((input.drop start).take (stop - start)) = .ok v ∧
    f.InRange ⟨some input, slots⟩ v ∧ f.Valid ⟨some input, slots⟩

section

variable {f : FieldPlan} {input : Bytes} {slots : List (Option Value)} {start stop : Nat}

theorem occupies_none : f.Occupies input slots start stop none ↔
    (f.optional = true ∧ input.length ≤ start) ∧ stop = start := by
  unfold Occupies
  split
  · rename_i habsent
    simp [habsent]
  · rename_i hpresent
    simp [hpresent]

theorem occupies_some {v : Value} : f.Occupies input slots start stop (some v) ↔
    ¬(f.optional = true ∧ input.length ≤ start) ∧ start ≤ stop ∧ stop ≤ input.length ∧
      f.Takes ⟨some input, slots⟩ input start (stop - start) ∧
      f.decode ((input.drop start).take (stop - start)) = .ok v ∧
      f.InRange ⟨some input, slots⟩ v ∧ f.Valid ⟨some input, slots⟩ := by
  unfold Occupies
  split
  · rename_i habsent
    simp [habsent]
  · rename_i hpresent
    simp [hpresent]

end

/-! ### The checks of one field -/

theorem evaluate_eq_ok {f : FieldPlan} {env : Env} {e : Formula} {v : Operand} :
    f.evaluate env e = .ok v ↔ e.eval env = .ok v :=
  except_mapError_eq_ok

theorem sizeAt_eq_ok {f : FieldPlan} {input : Bytes} {slots : List (Option Value)}
    {offset size : Nat} :
    f.sizeAt input offset slots = .ok size ↔ f.Takes ⟨some input, slots⟩ input offset size := by
  unfold sizeAt Takes
  cases f.width with
  | fixed n => simp [eq_comm]
  | remaining => simp [eq_comm]
  | dynamic e =>
      simp only [except_bind_eq_ok, evaluate_eq_ok]
      constructor
      · rintro ⟨v, hv, hsize⟩
        split at hsize
        · rename_i n
          split at hsize
          · rename_i hn
            refine ⟨n, hv, hn, ?_⟩
            have hpos : 0 ≤ n.val := hn.1
            have hsize' : n.val.toNat = size := Except.ok.inj hsize
            omega
          · cases hsize
        · cases hsize
      · rintro ⟨n, hv, hn, hsize⟩
        refine ⟨.int n, hv, ?_⟩
        simp only [hn, if_true]
        rw [hsize, Int.toNat_natCast]
        rfl

theorem checkRange_eq_ok {f : FieldPlan} {env : Env} {v : Value} :
    f.checkRange env v = .ok () ↔ f.InRange env v := by
  unfold checkRange InRange
  cases f.range with
  | none => simp [pure, Except.pure]
  | some r =>
      simp only [except_bind_eq_ok, evaluate_eq_ok, Option.some.injEq, forall_eq']
      constructor
      · rintro ⟨least, hleast, greatest, hgreatest, hcheck⟩
        split at hcheck
        · cases hcheck
        · rename_i hbounds
          simp only [Bool.or_eq_true, not_or, Bool.not_eq_true] at hbounds
          obtain ⟨hbelow, habove⟩ := hbounds
          cases hl : (Operand.ofValue v).order? least with
          | none => simp [hl] at hbelow
          | some below =>
              cases hg : (Operand.ofValue v).order? greatest with
              | none => simp [hg] at habove
              | some above =>
                  exact ⟨least, greatest, below, above, hleast, hgreatest, hl,
                    by simpa [hl] using hbelow, hg, by simpa [hg] using habove⟩
      · rintro ⟨least, greatest, below, above, hleast, hgreatest, hl, hbelow, hg, habove⟩
        refine ⟨least, hleast, greatest, hgreatest, ?_⟩
        simp [hl, hg, hbelow, habove, pure, Except.pure]

theorem checkValid_eq_ok {f : FieldPlan} {env : Env} :
    f.checkValid env = .ok () ↔ f.Valid env := by
  unfold checkValid Valid
  cases f.validate with
  | none => simp [pure, Except.pure]
  | some e =>
      simp only [except_bind_eq_ok, evaluate_eq_ok, Option.some.injEq, forall_eq']
      refine exists_congr fun x => and_congr_right fun _ => ?_
      cases x.truthy <;> simp [pure, Except.pure, throw, throwThe, MonadExceptOf.throw]

/-! ### Growing slots -/

section Growing

variable {f : FieldPlan} {before more : List (Option Value)}

theorem takes_append (hf : f.Scoped before.length) {input : Bytes} {offset size : Nat} :
    f.Takes ⟨some input, before ++ more⟩ input offset size ↔
      f.Takes ⟨some input, before⟩ input offset size := by
  unfold Takes
  cases hwidth : f.width with
  | fixed n => rfl
  | remaining => rfl
  | dynamic e => simp only [Formula.eval_append (hf.width e hwidth)]

theorem inRange_append (hf : f.Scoped before.length) {input : Option Bytes} {v : Value} :
    f.InRange ⟨input, before ++ more⟩ v ↔ f.InRange ⟨input, before⟩ v := by
  unfold InRange
  refine forall_congr' fun r => forall_congr' fun hr => ?_
  obtain ⟨hleast, hgreatest⟩ := hf.range r hr
  simp only [Formula.eval_append hleast, Formula.eval_append hgreatest]

theorem valid_append {place : Nat} (hf : f.Scoped place) (hplace : place + 1 = before.length)
    {input : Option Bytes} :
    f.Valid ⟨input, before ++ more⟩ ↔ f.Valid ⟨input, before⟩ := by
  unfold Valid
  refine forall_congr' fun e => forall_congr' fun he => ?_
  have hwithin := hf.validate e he
  rw [hplace] at hwithin
  simp only [Formula.eval_append hwithin]

end Growing

/-- Reading a field gives the slot and the end that the field occupies among all slots. -/
theorem read_eq_ok {f : FieldPlan} {before more : List (Option Value)}
    (hf : f.Scoped before.length) {input : Bytes} {start stop : Nat} {slot : Option Value} :
    f.read input start before = .ok (slot, stop) ↔
      f.Occupies input (before ++ slot :: more) start stop slot := by
  unfold read Occupies
  by_cases habsent : f.optional = true ∧ input.length ≤ start
  · simp [habsent, eq_comm]
  · have hpresent : (f.optional && decide (input.length ≤ start)) = false := by
      rwa [← Bool.not_eq_true, Bool.and_eq_true, decide_eq_true_iff]
    rw [if_neg habsent, hpresent]
    -- The range is checked among the slots before the field, the validation with its own as well.
    have hrange (v : Value) : f.InRange ⟨some input, before ++ some v :: more⟩ v ↔
        f.InRange ⟨some input, before ++ [some v]⟩ v :=
      (inRange_append hf).trans (inRange_append hf).symm
    have hvalid (v : Value) : f.Valid ⟨some input, before ++ some v :: more⟩ ↔
        f.Valid ⟨some input, before ++ [some v]⟩ := by
      have happend : before ++ some v :: more = before ++ [some v] ++ more := by simp
      rw [happend]
      exact valid_append hf (by simp)
    constructor
    · intro h
      obtain ⟨size, hsize, h⟩ := except_bind_eq_ok.mp h
      split at h
      · cases h
      · rename_i hroom
        obtain ⟨v, hdecode, h⟩ := except_bind_eq_ok.mp h
        obtain ⟨_, hchecked, h⟩ := except_bind_eq_ok.mp h
        obtain ⟨_, hvalidated, h⟩ := except_bind_eq_ok.mp h
        cases h
        have hlength : start + size - start = size := Nat.add_sub_cancel_left start size
        refine ⟨v, rfl, Nat.le_add_right start size, Nat.le_of_not_lt hroom, ?_⟩
        rw [hlength]
        exact ⟨(takes_append hf).mpr (sizeAt_eq_ok.mp hsize), hdecode,
          (hrange v).mpr (checkRange_eq_ok.mp hchecked),
          (hvalid v).mpr (checkValid_eq_ok.mp hvalidated)⟩
    · rintro ⟨v, rfl, hstart, hstop, htakes, hdecode, hin, hval⟩
      have hlength : start + (stop - start) = stop := Nat.add_sub_cancel' hstart
      refine except_bind_eq_ok.mpr ⟨stop - start, sizeAt_eq_ok.mpr ((takes_append hf).mp htakes), ?_⟩
      rw [hlength, if_neg (Nat.not_lt.mpr hstop)]
      refine except_bind_eq_ok.mpr ⟨v, hdecode, ?_⟩
      refine except_bind_eq_ok.mpr ⟨(), checkRange_eq_ok.mpr ((hrange v).mp hin), ?_⟩
      exact except_bind_eq_ok.mpr ⟨(), checkValid_eq_ok.mpr ((hvalid v).mp hval), rfl⟩

end FieldPlan

namespace Plan

/-- Fields that lie one behind the other between two offsets, with their slots.  `all` are the slots
of the whole message. -/
inductive Occupy (input : Bytes) (all : List (Option Value)) :
    List FieldPlan → Nat → List (Option Value) → Nat → Prop where
  | nil {offset : Nat} : Occupy input all [] offset [] offset
  | cons {f : FieldPlan} {rest : List FieldPlan} {slot : Option Value}
      {slots : List (Option Value)} {start next stop : Nat}
      (first : f.Occupies input all start next slot)
      (later : Occupy input all rest next slots stop) :
      Occupy input all (f :: rest) start (slot :: slots) stop

theorem Occupy.length_eq {input : Bytes} {all slots : List (Option Value)}
    {fields : List FieldPlan} {start stop : Nat}
    (h : Occupy input all fields start slots stop) : slots.length = fields.length := by
  induction h with
  | nil => rfl
  | cons _ _ ih => rw [List.length_cons, List.length_cons, ih]

/-- Reading fields behind those whose slots are known gives what the fields occupy. -/
theorem readFields_eq_ok {input : Bytes} {fields : List FieldPlan}
    {before all : List (Option Value)} {start stop : Nat}
    (hscoped : ∀ i (hi : i < fields.length), fields[i].Scoped (before.length + i)) :
    readFields input fields start before = .ok (all, stop) ↔
      ∃ slots, all = before ++ slots ∧ Occupy input all fields start slots stop := by
  -- The slots read so far grow from field to field, while `all` stays the same.
  induction fields generalizing before start with
  | nil =>
      constructor
      · intro h
        obtain ⟨rfl, rfl⟩ := Prod.mk.inj (Except.ok.inj h)
        exact ⟨[], by simp, .nil⟩
      · rintro ⟨slots, rfl, h⟩
        cases h
        simp [readFields]
  | cons f rest ih =>
      have hfirst : f.Scoped before.length := hscoped 0 (Nat.zero_lt_succ _)
      have hrest (slot : Option Value) (i : Nat) (hi : i < rest.length) :
          rest[i].Scoped ((before ++ [slot]).length + i) := by
        have h := hscoped (i + 1) (Nat.succ_lt_succ hi)
        rw [List.length_append, List.length_singleton, Nat.add_right_comm]
        exact h
      constructor
      · intro h
        obtain ⟨⟨slot, next⟩, hread, h⟩ := except_bind_eq_ok.mp h
        obtain ⟨slots, rfl, hlater⟩ := (ih (hrest slot)).mp h
        rw [List.append_assoc, List.singleton_append] at hlater ⊢
        exact ⟨slot :: slots, rfl, .cons ((FieldPlan.read_eq_ok hfirst).mp hread) hlater⟩
      · rintro ⟨_, rfl, h⟩
        cases h with
        | @cons _ _ slot slots _ next _ first later =>
            refine except_bind_eq_ok.mpr
              ⟨(slot, next), (FieldPlan.read_eq_ok hfirst).mpr first, (ih (hrest slot)).mpr ?_⟩
            exact ⟨slots, by simp, later⟩

theorem WellFormed.scopes_from_zero {p : Plan} (hp : p.WellFormed) (i : Nat)
    (hi : i < p.fields.length) :
    p.fields[i].Scoped (([] : List (Option Value)).length + i) := by
  simpa using hp.scopes i hi

/-- The fields of a message occupy an input in one way only. -/
theorem Occupy.unique {p : Plan} (hp : p.WellFormed) {input : Bytes}
    {slots slots' : List (Option Value)} {stop stop' : Nat}
    (h : Occupy input slots p.fields 0 slots stop)
    (h' : Occupy input slots' p.fields 0 slots' stop') : slots = slots' ∧ stop = stop' := by
  have hread := (readFields_eq_ok hp.scopes_from_zero).mpr ⟨slots, rfl, h⟩
  have hread' := (readFields_eq_ok hp.scopes_from_zero).mpr ⟨slots', rfl, h'⟩
  rw [List.nil_append] at hread hread'
  exact Prod.mk.inj (Except.ok.inj (hread.symm.trans hread'))

/-- Rules never make a message fail. -/
theorem decode_eq_error_iff {p : Plan} {input : Bytes} {e : CodecError} :
    p.decode input = .error e ↔ readFields input p.fields 0 [] = .error e := by
  constructor
  · intro h
    rcases except_bind_eq_error.mp h with hread | ⟨_, _, h⟩
    · exact hread
    · cases h
  · intro h
    exact except_bind_eq_error.mpr (.inl h)

/-- The fields are read before any rule is looked at. -/
theorem decode_eq_ok_iff_readFields {p : Plan} {input : Bytes} {d : Decoded} :
    p.decode input = .ok d ↔ ∃ slots, readFields input p.fields 0 [] = .ok (slots, d.consumed) ∧
      d.fields = record p.fields slots ∧
        (d.display, d.color) = p.annotate ⟨some input, slots⟩ := by
  constructor
  · intro h
    obtain ⟨⟨slots, consumed⟩, hread, h⟩ := except_bind_eq_ok.mp h
    cases h
    exact ⟨slots, hread, rfl, rfl⟩
  · rintro ⟨slots, hread, hfields, hannotated⟩
    refine except_bind_eq_ok.mpr ⟨(slots, d.consumed), hread, ?_⟩
    obtain ⟨fields, display, color, consumed⟩ := d
    simp only at hfields hannotated
    subst hfields
    simp [← hannotated, pure, Except.pure]

theorem exists_decode_of_readFields {p : Plan} {input : Bytes} {slots : List (Option Value)}
    {consumed : Nat} (h : readFields input p.fields 0 [] = .ok (slots, consumed)) :
    ∃ d, p.decode input = .ok d ∧ d.fields = record p.fields slots ∧ d.consumed = consumed :=
  ⟨_, except_bind_eq_ok.mpr ⟨(slots, consumed), h, rfl⟩, rfl, rfl⟩

/-- A message decodes to a record if its fields occupy the input from the beginning on. -/
theorem decode_eq_ok {p : Plan} (hp : p.WellFormed) {input : Bytes} {d : Decoded} :
    p.decode input = .ok d ↔ ∃ slots, Occupy input slots p.fields 0 slots d.consumed ∧
      d.fields = record p.fields slots ∧
        (d.display, d.color) = p.annotate ⟨some input, slots⟩ := by
  rw [decode_eq_ok_iff_readFields]
  apply exists_congr
  intro slots
  rw [readFields_eq_ok hp.scopes_from_zero]
  simp only [List.nil_append, exists_eq_left']

end Plan

end WireSpec
