import WireSpec.Proofs.Codec.Evaluations
import WireSpec.Proofs.Codec.Machine
import WireSpec.Proofs.Codec.RoundTrip
/-!
# Messages of which bytes are missing

A field that does not fit into what is left of the input is reported as short of data.  Where every
field is read from its own bytes and the values before it alone, this is the only outcome that bytes
behind the input can change: a message stays decoded, with the same fields, and every other error
stays as it is.
-/

namespace WireSpec

/-- The error is that bytes are missing. -/
def CodecError.IsShort : CodecError → Prop
  | insufficientData _ => True
  | _ => False

/-- The result does not turn on bytes that are missing. -/
def NeverShort {α : Type} (result : Except CodecError α) : Prop :=
  ∀ e, result = .error e → ¬e.IsShort

@[simp] theorem neverShort_ok {α : Type} (x : α) : NeverShort (.ok x) := by
  intro e h
  cases h

@[simp] theorem neverShort_error {α : Type} {e : CodecError} :
    NeverShort (.error e : Except CodecError α) ↔ ¬e.IsShort := by
  simp [NeverShort]

section

variable {α β : Type} {x : Except CodecError α} {f : α → Except CodecError β}

theorem NeverShort.bind (hx : NeverShort x) (hf : ∀ a, NeverShort (f a)) :
    NeverShort (x >>= f) := by
  cases x with
  | error e => exact neverShort_error.mpr (neverShort_error.mp hx)
  | ok a => exact hf a

theorem NeverShort.of_bind (h : NeverShort (x >>= f)) : NeverShort x := by
  cases x with
  | error e => exact neverShort_error.mpr (neverShort_error.mp h)
  | ok a => exact neverShort_ok a

end

namespace FieldPlan

/-! ### The checks of one field -/

section

variable {f : FieldPlan} {env : Env} {input : Bytes} {slots : List (Option Value)} {offset : Nat}

theorem neverShort_evaluate (g : Formula) : NeverShort (f.evaluate env g) := by
  unfold evaluate
  cases g.eval env with
  | error e => simp [Except.mapError, CodecError.IsShort]
  | ok v => exact neverShort_ok v

theorem neverShort_sizeAt : NeverShort (f.sizeAt input offset slots) := by
  unfold sizeAt
  split
  · exact neverShort_ok _
  · exact neverShort_ok _
  · apply (neverShort_evaluate _).bind
    intro v
    split
    · split
      · exact neverShort_ok _
      · exact neverShort_error.mpr id
    · exact neverShort_error.mpr id

theorem neverShort_decode (raw : Bytes) : NeverShort (f.decode raw) := by
  unfold decode
  split <;> try exact neverShort_ok _
  split
  · exact neverShort_ok _
  · exact neverShort_error.mpr id

theorem neverShort_checkRange (v : Value) : NeverShort (f.checkRange env v) := by
  unfold checkRange
  split
  · exact neverShort_ok _
  · apply (neverShort_evaluate _).bind
    intro least
    apply (neverShort_evaluate _).bind
    intro greatest
    dsimp only
    split
    · exact neverShort_error.mpr id
    · exact neverShort_ok _

theorem neverShort_checkValid : NeverShort (f.checkValid env) := by
  unfold checkValid
  split
  · exact neverShort_ok _
  · apply (neverShort_evaluate _).bind
    intro x
    split
    · exact neverShort_ok _
    · exact neverShort_error.mpr id

/-- A field is short of data exactly where its size leads behind the end of the input. -/
theorem exists_size_of_short {e : CodecError} (h : f.read input offset slots = .error e)
    (hshort : e.IsShort) :
    ∃ size, f.sizeAt input offset slots = .ok size ∧ input.length < offset + size := by
  unfold read at h
  split at h
  · cases h
  · rcases except_bind_eq_error.mp h with hsize | ⟨size, hsize, h⟩
    · exact absurd hshort (neverShort_sizeAt e hsize)
    · refine ⟨size, hsize, ?_⟩
      split at h
      · assumption
      · rcases except_bind_eq_error.mp h with hdecode | ⟨v, _, h⟩
        · exact absurd hshort (neverShort_decode _ e hdecode)
        · rcases except_bind_eq_error.mp h with hrange | ⟨_, _, h⟩
          · exact absurd hshort (neverShort_checkRange v e hrange)
          · rcases except_bind_eq_error.mp h with hvalid | ⟨_, _, h⟩
            · exact absurd hshort (neverShort_checkValid e hvalid)
            · cases h

/-- A field that must be there ends where its size leads, and not behind the end of the input. -/
theorem exists_size_of_read {slot : Option Value} {next : Nat} (hrequired : f.optional = false)
    (h : f.read input offset slots = .ok (slot, next)) :
    ∃ size, f.sizeAt input offset slots = .ok size ∧ next = offset + size ∧
      next ≤ input.length := by
  unfold read at h
  rw [hrequired, Bool.false_and, if_neg Bool.false_ne_true] at h
  obtain ⟨size, hsize, h⟩ := except_bind_eq_ok.mp h
  split at h
  · cases h
  · rename_i hroom
    obtain ⟨v, _, h⟩ := except_bind_eq_ok.mp h
    obtain ⟨_, _, h⟩ := except_bind_eq_ok.mp h
    obtain ⟨_, _, h⟩ := except_bind_eq_ok.mp h
    cases h
    exact ⟨size, hsize, rfl, Nat.le_of_not_lt hroom⟩

end

/-! ### Fields that are read from their own bytes -/

theorem evaluate_eq_of_not_usesInput (f : FieldPlan) {g : Formula} (hg : g.usesInput = false)
    (input input' : Option Bytes) (slots : List (Option Value)) :
    f.evaluate ⟨input, slots⟩ g = f.evaluate ⟨input', slots⟩ g := by
  unfold evaluate
  rw [Formula.eval_eq_of_not_usesInput hg input input']

/-- The field must be there, its size is not what is left of the input, and none of its formulas names
the input. -/
structure SelfContained (f : FieldPlan) : Prop where
  required : f.optional = false
  bounded : f.width ≠ .remaining
  inputFree : f.InputFree

instance (w : Width) : Decidable (w = .remaining) :=
  match w with
  | .remaining => .isTrue rfl
  | .fixed _ | .dynamic _ => .isFalse nofun

instance (f : FieldPlan) : Decidable f.SelfContained :=
  decidable_of_iff (f.optional = false ∧ f.width ≠ .remaining ∧ f.InputFree)
    ⟨fun ⟨hrequired, hbounded, hfree⟩ => ⟨hrequired, hbounded, hfree⟩,
      fun h => ⟨h.required, h.bounded, h.inputFree⟩⟩

namespace SelfContained

variable {f : FieldPlan} (hf : f.SelfContained) {input longer : Bytes}
  {slots : List (Option Value)} {offset : Nat}

include hf

theorem sizeAt_eq (input input' : Bytes) :
    f.sizeAt input offset slots = f.sizeAt input' offset slots := by
  unfold sizeAt
  split
  · rfl
  · rename_i hwidth
    exact absurd hwidth hf.bounded
  · rename_i size hwidth
    rw [f.evaluate_eq_of_not_usesInput (hf.inputFree.width hwidth) (some input) (some input')]

theorem checkRange_eq (input input' : Option Bytes) (v : Value) :
    f.checkRange ⟨input, slots⟩ v = f.checkRange ⟨input', slots⟩ v := by
  unfold checkRange
  split
  · rfl
  · rename_i r hrange
    obtain ⟨hleast, hgreatest⟩ := hf.inputFree.range hrange
    simp only [f.evaluate_eq_of_not_usesInput hleast input input',
      f.evaluate_eq_of_not_usesInput hgreatest input input']

theorem checkValid_eq (input input' : Option Bytes) :
    f.checkValid ⟨input, slots⟩ = f.checkValid ⟨input', slots⟩ := by
  unfold checkValid
  split
  · rfl
  · rename_i condition hvalidate
    rw [f.evaluate_eq_of_not_usesInput (hf.inputFree.validate hvalidate) input input']

/-- Unless data is short, bytes behind the input change nothing for a field. -/
theorem read_eq_of_longer (hlonger : input <+: longer)
    (h : NeverShort (f.read input offset slots)) :
    f.read longer offset slots = f.read input offset slots := by
  obtain ⟨more, rfl⟩ := hlonger
  cases hsize : f.sizeAt input offset slots with
  | error e =>
      have hsize' := (hf.sizeAt_eq (input ++ more) input).trans hsize
      simp only [read, hf.required, hsize, hsize']
      rfl
  | ok size =>
      have hsize' := (hf.sizeAt_eq (input ++ more) input).trans hsize
      simp only [read, hf.required, hsize, hsize', Bool.false_and, Bool.false_eq_true,
        if_false] at h ⊢
      have hroom : ¬input.length < offset + size := by
        intro hshort
        apply h (.insufficientData f.name) _ trivial
        change (if _ then _ else _) = _
        rw [if_pos hshort]
        rfl
      have hroom' : ¬(input ++ more).length < offset + size := by
        rw [List.length_append]
        omega
      have hraw : ((input ++ more).drop offset).take size = (input.drop offset).take size := by
        rw [List.drop_append_of_le_length (by omega)]
        apply List.take_append_of_le_length
        rw [List.length_drop]
        omega
      change (if _ then _ else _) = (if _ then _ else _)
      rw [if_neg hroom, if_neg hroom', hraw]
      apply bind_congr
      intro v
      rw [hf.checkRange_eq (some (input ++ more)) (some input),
        hf.checkValid_eq (some (input ++ more)) (some input)]

/-- An input that reaches as far as a field did is not short of data for it. -/
theorem neverShort_of_read {slot : Option Value} {next : Nat} {other : Bytes}
    (h : f.read input offset slots = .ok (slot, next)) (hreach : next ≤ other.length) :
    NeverShort (f.read other offset slots) := by
  obtain ⟨size, hsize, rfl, _⟩ := exists_size_of_read hf.required h
  intro e herror hshort
  obtain ⟨size', hsize', hlong⟩ := exists_size_of_short herror hshort
  rw [hf.sizeAt_eq other input, hsize] at hsize'
  obtain rfl := Except.ok.inj hsize'
  omega

end SelfContained

end FieldPlan

namespace Plan

/-! ### Whole messages -/

section

variable {fields : List FieldPlan} (hfields : ∀ f ∈ fields, f.SelfContained)
  {input longer : Bytes} {before slots : List (Option Value)} {start stop : Nat}

include hfields

theorem readFields_eq_of_longer (hlonger : input <+: longer)
    (h : NeverShort (readFields input fields start before)) :
    readFields longer fields start before = readFields input fields start before := by
  induction fields generalizing start before with
  | nil => rfl
  | cons f rest ih =>
      obtain ⟨hf, hrest⟩ := List.forall_mem_cons.mp hfields
      have hfirst := hf.read_eq_of_longer hlonger h.of_bind
      unfold readFields at h ⊢
      rw [hfirst]
      cases hread : f.read input start before with
      | error e => rfl
      | ok result =>
          rw [hread] at h
          exact ih hrest h

theorem start_le_of_readFields (h : readFields input fields start before = .ok (slots, stop)) :
    start ≤ stop := by
  induction fields generalizing start before with
  | nil =>
      cases h
      exact Nat.le_refl _
  | cons f rest ih =>
      obtain ⟨hf, hrest⟩ := List.forall_mem_cons.mp hfields
      obtain ⟨⟨slot, next⟩, hread, hlater⟩ := except_bind_eq_ok.mp h
      obtain ⟨size, _, rfl, _⟩ := FieldPlan.exists_size_of_read hf.required hread
      exact Nat.le_trans (Nat.le_add_right start size) (ih hrest hlater)

/-- An input that a message was read from can be cut where the message ends, and not before. -/
theorem neverShort_of_readFields (hlonger : input <+: longer)
    (h : readFields longer fields start before = .ok (slots, stop)) (hreach : stop ≤ input.length) :
    NeverShort (readFields input fields start before) := by
  induction fields generalizing start before with
  | nil => exact neverShort_ok _
  | cons f rest ih =>
      obtain ⟨hf, hrest⟩ := List.forall_mem_cons.mp hfields
      obtain ⟨⟨slot, next⟩, hread, hlater⟩ := except_bind_eq_ok.mp h
      have hnext : next ≤ stop := start_le_of_readFields hrest hlater
      have hshort := hf.neverShort_of_read hread (Nat.le_trans hnext hreach)
      have hsame := hf.read_eq_of_longer hlonger hshort
      unfold readFields
      rw [← hsame, hread]
      exact ih hrest hlater

end

section

variable {p : Plan} {input longer : Bytes} {r : Decoded} {e : CodecError}

theorem neverShort_decode_iff :
    NeverShort (p.decode input) ↔ NeverShort (readFields input p.fields 0 []) := by
  simp only [NeverShort, decode_eq_error_iff]

theorem consumed_le_length (h : p.decode input = .ok r) : r.consumed ≤ input.length := by
  obtain ⟨slots, hread, _⟩ := decode_eq_ok_iff_readFields.mp h
  exact offset_le_length_of_readFields (Nat.zero_le _) hread

variable (hp : ∀ f ∈ p.fields, f.SelfContained)

include hp

theorem exists_decode_of_longer (hlonger : input <+: longer) (h : p.decode input = .ok r) :
    ∃ r', p.decode longer = .ok r' ∧ r'.fields = r.fields ∧ r'.consumed = r.consumed := by
  obtain ⟨slots, hread, hfields, _⟩ := decode_eq_ok_iff_readFields.mp h
  have hsame := readFields_eq_of_longer hp hlonger (hread ▸ neverShort_ok _)
  rw [hfields]
  exact exists_decode_of_readFields (hsame.trans hread)

theorem decode_eq_error_of_longer (hlonger : input <+: longer) (h : p.decode input = .error e)
    (hnot : ¬e.IsShort) : p.decode longer = .error e := by
  rw [decode_eq_error_iff] at h ⊢
  exact (readFields_eq_of_longer hp hlonger (h ▸ neverShort_error.mpr hnot)).trans h

theorem exists_decode_of_cut (hlonger : input <+: longer) (h : p.decode longer = .ok r)
    (hreach : r.consumed ≤ input.length) :
    ∃ r', p.decode input = .ok r' ∧ r'.fields = r.fields ∧ r'.consumed = r.consumed := by
  obtain ⟨slots, hread, hfields, _⟩ := decode_eq_ok_iff_readFields.mp h
  have hshort := neverShort_of_readFields hp hlonger hread hreach
  have hsame := readFields_eq_of_longer hp hlonger hshort
  rw [hfields]
  exact exists_decode_of_readFields (hsame.symm.trans hread)

/-- Of a message that is cut before its end, bytes are missing. -/
theorem exists_short_of_cut (hlonger : input <+: longer) (h : p.decode longer = .ok r)
    (hcut : input.length < r.consumed) : ∃ name, p.decode input = .error (.insufficientData name) := by
  cases hdecode : p.decode input with
  | ok r' =>
      obtain ⟨r'', hagain, _, hconsumed⟩ := exists_decode_of_longer hp hlonger hdecode
      obtain rfl := Except.ok.inj (h.symm.trans hagain)
      have hfits := consumed_le_length hdecode
      omega
  | error e =>
      by_cases hshort : e.IsShort
      · cases e with
        | insufficientData name => exact ⟨name, rfl⟩
        | _ => exact hshort.elim
      · rw [decode_eq_error_of_longer hp hlonger hdecode hshort] at h
        cases h

end

end Plan

/-- Where all fields are read from their own bytes, a message that was decoded is decoded alike with
more bytes behind it and from its own bytes alone, while from fewer bytes it is reported as short of
data.  Of the errors, only this one can go away when bytes are added. -/
theorem decode_append_of_selfContained {p : Plan} (hp : ∀ f ∈ p.fields, f.SelfContained)
    (b s : Bytes) :
    (∀ r, p.decode b = .ok r →
      (∃ r', p.decode (b ++ s) = .ok r' ∧ r'.fields = r.fields ∧ r'.consumed = r.consumed) ∧
      (∃ r', p.decode (b.take r.consumed) = .ok r' ∧ r'.fields = r.fields ∧
        r'.consumed = r.consumed) ∧
      ∀ n < r.consumed, ∃ name, p.decode (b.take n) = .error (.insufficientData name)) ∧
    ∀ e, p.decode b = .error e → (∀ name, e ≠ .insufficientData name) →
      p.decode (b ++ s) = .error e := by
  refine ⟨fun r hdecode => ⟨?_, ?_, ?_⟩, fun e herror hother => ?_⟩
  · exact Plan.exists_decode_of_longer hp ⟨s, rfl⟩ hdecode
  · apply Plan.exists_decode_of_cut hp ⟨_, List.take_append_drop _ b⟩ hdecode
    rw [List.length_take_of_le (Plan.consumed_le_length hdecode)]
  · intro n hn
    apply Plan.exists_short_of_cut hp ⟨_, List.take_append_drop n b⟩ hdecode
    rw [List.length_take]
    omega
  · apply Plan.decode_eq_error_of_longer hp ⟨s, rfl⟩ herror
    intro hshort
    cases e with
    | insufficientData name => exact hother name rfl
    | _ => exact hshort

/-- A count, so many bytes, and a text of two characters. -/
def labelledSource : String :=
  "protocol P \x7b message M \x7b uint8 n range(1, 9); bytes data length(n) " ++
    "validate(data[0] != 0); string label length(2) encoding(ascii); \x7d \x7d"

theorem decode_append_of_selfContained_labelled : ∃ d r, compile labelledSource {} = .ok d ∧
    (∀ f ∈ d.plan.fields, f.SelfContained) ∧ d.plan.decode [1, 7, 72, 105, 99] = .ok r ∧
      (∃ r', d.plan.decode [1, 7, 72, 105, 99, 0, 200] = .ok r' ∧ r'.fields = r.fields) ∧
      (∃ r', d.plan.decode [1, 7, 72, 105] = .ok r' ∧ r'.fields = r.fields) ∧
      (∃ name, d.plan.decode [1, 7, 72] = .error (.insufficientData name)) ∧
      d.plan.decode [1, 0] = .error (.validationFailed "data") ∧
      d.plan.decode [1, 0, 72, 105] = .error (.validationFailed "data") := by
  have hrun : (compile labelledSource {}).toOption.any (fun d =>
      decide (∀ f ∈ d.plan.fields, f.SelfContained) &&
        ((d.plan.decode [1, 7, 72, 105, 99]).toOption.any (fun r => decide (r.consumed = 4)) &&
          match d.plan.decode [1, 0] with
          | .error e => decide (e = .validationFailed "data")
          | .ok _ => false)) = true := by
    decide +kernel
  obtain ⟨d, hcompile, hrun⟩ := exists_eq_ok_of_any hrun
  obtain ⟨hfields, hrun⟩ := Bool.and_eq_true_iff.mp hrun
  obtain ⟨hread, hrun⟩ := Bool.and_eq_true_iff.mp hrun
  obtain ⟨r, hdecode, hconsumed⟩ := exists_eq_ok_of_any hread
  have hp := of_decide_eq_true hfields
  split at hrun
  · rename_i e herror
    obtain rfl := of_decide_eq_true hrun
    obtain ⟨hmore, hcut, hshort⟩ :=
      (decode_append_of_selfContained hp [1, 7, 72, 105, 99] [0, 200]).1 r hdecode
    have hfails := (decode_append_of_selfContained hp [1, 0] [72, 105]).2 _ herror nofun
    rw [of_decide_eq_true hconsumed] at hcut hshort
    obtain ⟨r₁, hmore, hfields₁, _⟩ := hmore
    obtain ⟨r₂, hcut, hfields₂, _⟩ := hcut
    exact ⟨d, r, hcompile, hp, hdecode, ⟨r₁, hmore, hfields₁⟩, ⟨r₂, hcut, hfields₂⟩,
      hshort 3 (by decide), herror, hfails⟩
  · cases hrun

end WireSpec
