import WireSpec.Proofs.Codec.Writing
/-!
# Writing a decoded message and reading it again

What a record is written as is shorter than the input it was read from by the padding of computed
size, which is written as nothing.  Where there is no such padding the record is read again from
what was written; where there is some it never is.
-/

namespace WireSpec

namespace FieldPlan

def formulas (f : FieldPlan) : List Formula :=
  (match f.width with
    | .dynamic e => [e]
    | _ => []) ++
  (match f.range with
    | some r => [r.least, r.greatest]
    | none => []) ++ f.validate.toList

/-- None of the formulas by which a field is read names the input. -/
def InputFree (f : FieldPlan) : Prop := ∀ e ∈ f.formulas, e.usesInput = false

instance (f : FieldPlan) : Decidable f.InputFree :=
  inferInstanceAs (Decidable (∀ e ∈ f.formulas, e.usesInput = false))

namespace InputFree

variable {f : FieldPlan}

theorem width (h : f.InputFree) {e : Formula} (he : f.width = .dynamic e) :
    e.usesInput = false :=
  h e (by simp [formulas, he])

theorem range (h : f.InputFree) {r : RangeCheck} (hr : f.range = some r) :
    r.least.usesInput = false ∧ r.greatest.usesInput = false :=
  ⟨h r.least (by simp [formulas, hr]), h r.greatest (by simp [formulas, hr])⟩

theorem validate (h : f.InputFree) {e : Formula} (he : f.validate = some e) :
    e.usesInput = false :=
  h e (by simp [formulas, he])

end InputFree

/-- What it takes for a field to be written as it was read. -/
structure WritesBack (f : FieldPlan) : Prop where
  inputFree : f.InputFree
  sized : f.Sized
  not_float : f.type.isFloat = false

theorem WritesBack.restores {f : FieldPlan} (h : f.WritesBack) : f.Restores :=
  ⟨h.sized, h.not_float⟩

/-- The size of padding where it is computed; no other bytes of a message go unwritten. -/
def unwritten (f : FieldPlan) (slots : List (Option Value)) (slot : Option Value) : Nat :=
  match slot, f.type, f.width with
  | some _, .void, .dynamic e =>
      match e.eval ⟨none, slots⟩ with
      | .ok (.int n) => n.val.toNat
      | _ => 0
  | _, _, _ => 0

variable {f : FieldPlan} {input input' : Bytes} {slots : List (Option Value)}
  {start stop start' stop' : Nat} {slot : Option Value}

theorem unwritten_of_not_isComputedPadding (h : ¬f.IsComputedPadding) :
    f.unwritten slots slot = 0 := by
  unfold unwritten
  split
  · rename_i e htype hwidth
    exact absurd ⟨htype, e, hwidth⟩ h
  · rfl

theorem unwritten_of_takes (hf : f.WritesBack) (hpadding : f.IsComputedPadding) {size : Nat}
    {v : Value} (h : f.Takes ⟨some input, slots⟩ input start size) :
    f.unwritten slots (some v) = size := by
  obtain ⟨htype, e, hwidth⟩ := hpadding
  simp only [Takes, hwidth] at h
  obtain ⟨n, heval, _, hsize⟩ := h
  have heval' : e.eval ⟨none, slots⟩ = .ok (.int n) := by
    rw [Formula.eval_eq_of_not_usesInput (hf.inputFree.width hwidth) none (some input), heval]
  simp only [unwritten, htype, hwidth, heval']
  omega

/-- What a field takes is written or padding of computed size. -/
theorem Occupies.stop_eq (hf : f.WritesBack) (h : f.Occupies input slots start stop slot) :
    stop = start + (f.written slot).length + f.unwritten slots slot := by
  by_cases hpadding : f.IsComputedPadding
  · cases slot with
    | none => exact (occupies_none.mp h).2
    | some v =>
        obtain ⟨_, hstart, _, htakes, _⟩ := occupies_some.mp h
        rw [written_of_encode (h.encode_eq hf.restores), canonical_of_isComputedPadding hpadding,
          unwritten_of_takes hf hpadding htakes, List.length_nil]
        omega
  · rw [unwritten_of_not_isComputedPadding hpadding]
    exact h.stop_eq_of_not_isComputedPadding hf.restores hpadding

/-- The size, the range and the validation of a field are the same in an input of the same
length. -/
theorem Occupies.transfer (hf : f.WritesBack) (hlength : input'.length = input.length)
    (hbytes : (input'.drop start).take (stop - start) = f.written slot)
    (h : f.Occupies input slots start stop slot) : f.Occupies input' slots start stop slot := by
  have heval {e : Formula} (he : e.usesInput = false) :
      e.eval ⟨some input', slots⟩ = e.eval ⟨some input, slots⟩ :=
    Formula.eval_eq_of_not_usesInput he _ _ _
  cases slot with
  | none =>
      rw [occupies_none, hlength]
      exact occupies_none.mp h
  | some v =>
      rw [written_of_encode (h.encode_eq hf.restores)] at hbytes
      obtain ⟨hpresent, hstart, hstop, htakes, hdecode, hin, hval⟩ := occupies_some.mp h
      rw [occupies_some, hlength]
      refine ⟨hpresent, hstart, hstop, ?_, ?_, ?_, ?_⟩
      · unfold Takes at htakes ⊢
        cases hwidth : f.width with
        | fixed n => simpa only [hwidth] using htakes
        | remaining => simpa only [hwidth, hlength] using htakes
        | dynamic e => simpa only [hwidth, heval (hf.inputFree.width hwidth)] using htakes
      · rw [hbytes]
        exact decode_canonical hdecode
      · intro r hr
        obtain ⟨hleast, hgreatest⟩ := hf.inputFree.range hr
        simpa only [heval hleast, heval hgreatest] using hin r hr
      · intro e he
        simpa only [heval (hf.inputFree.validate he)] using hval e he

end FieldPlan

namespace Plan

def slotsOf (p : Plan) (values : Record) : List (Option Value) :=
  p.fields.map fun f => values.lookup f.name

def unwritten (all : List (Option Value)) (fields : List FieldPlan)
    (slots : List (Option Value)) : Nat :=
  ((fields.zip slots).map fun (f, slot) => f.unwritten all slot).sum

variable {input input' : Bytes} {all slots : List (Option Value)} {fields : List FieldPlan}
  {start stop start' stop' : Nat} {values : Record}

theorem unwritten_cons (all : List (Option Value)) (f : FieldPlan) (rest : List FieldPlan)
    (slot : Option Value) (slots : List (Option Value)) :
    unwritten all (f :: rest) (slot :: slots) =
      f.unwritten all slot + unwritten all rest slots := rfl

theorem Occupy.stop_eq (hfields : ∀ f ∈ fields, f.WritesBack)
    (h : Occupy input all fields start slots stop) :
    stop = start + (written fields slots).length + unwritten all fields slots := by
  induction h with
  | nil => rfl
  | @cons f rest slot slots start next stop first _ ih =>
      obtain ⟨hf, hrest⟩ := List.forall_mem_cons.mp hfields
      have hnext := first.stop_eq hf
      have hstop := ih hrest
      rw [written_cons, unwritten_cons, List.length_append]
      omega

/-- Where nothing goes unwritten, what is written takes the place of what was read. -/
theorem Occupy.transfer (hfields : ∀ f ∈ fields, f.WritesBack)
    (hlength : input'.length = input.length)
    (hbytes : (input'.drop start).take (stop - start) = written fields slots)
    (hunwritten : unwritten all fields slots = 0)
    (h : Occupy input all fields start slots stop) : Occupy input' all fields start slots stop := by
  induction h with
  | nil => exact .nil
  | @cons f rest slot slots start next stop first later ih =>
      obtain ⟨hf, hrest⟩ := List.forall_mem_cons.mp hfields
      rw [unwritten_cons, Nat.add_eq_zero_iff] at hunwritten
      rw [written_cons] at hbytes
      have hnext := first.stop_eq hf
      have hstop := later.stop_eq hrest
      rw [hunwritten.1] at hnext
      have hfirst : (input'.drop start).take (next - start) = f.written slot := by
        have htake := congrArg (List.take (next - start)) hbytes
        rw [List.take_take, Nat.min_eq_left (by omega)] at htake
        rw [htake]
        exact List.take_left' (by omega)
      have hlater : (input'.drop next).take (stop - next) = written rest slots := by
        have hdrop := congrArg (List.drop (next - start)) hbytes
        rw [List.drop_take, List.drop_drop, List.drop_left' (by omega)] at hdrop
        have hstart : start + (next - start) = next := by omega
        have hsize : stop - start - (next - start) = stop - next := by omega
        rwa [hstart, hsize] at hdrop
      exact .cons (first.transfer hf hlength hfirst) (ih hrest hlater hunwritten.2)

theorem encode_of_occupy {p : Plan} (hfields : ∀ f ∈ p.fields, f.WritesBack)
    (hslots : p.slotsOf values = slots)
    (h : Occupy input slots p.fields start slots stop) :
    p.encode values = .ok (written p.fields slots) :=
  encode_of_restores (fun f hf => (hfields f hf).restores) hslots h

theorem slotsOf_record {p : Plan} (hp : p.WellFormed) (hlength : slots.length = p.fields.length) :
    p.slotsOf (record p.fields slots) = slots :=
  map_lookup_record hp.names_nodup hlength

/-- The padding of computed size in a message, in bytes. -/
def padding (p : Plan) (values : Record) : Nat :=
  unwritten (p.slotsOf values) p.fields (p.slotsOf values)

end Plan

/-- Without float fields and without formulas that name the input, an input that is read whole is
written again but for its padding of computed size, and the same record is read from that exactly
if there is no such padding. -/
theorem encode_decode_iff_padding {source : String} {o : Options} {d : Decoder}
    (h : compile source o = .ok d) (hfloat : ∀ f ∈ d.plan.fields, f.type.isFloat = false)
    (hfree : ∀ f ∈ d.plan.fields, f.InputFree) {input : Bytes} {r : Decoded}
    (hdecode : d.plan.decode input = .ok r) (hwhole : r.consumed = input.length) :
    ∃ out, d.plan.encode r.fields = .ok out ∧
      out.length + d.plan.padding r.fields = input.length ∧
        ((∃ r', d.plan.decode out = .ok r' ∧ r'.fields = r.fields) ↔
          d.plan.padding r.fields = 0) := by
  have hplan := wellFormed_of_compile h
  have hfields : ∀ f ∈ d.plan.fields, f.WritesBack := fun f hf =>
    ⟨hfree f hf, hplan.sized f hf, hfloat f hf⟩
  obtain ⟨slots, hslots, hrecord, _⟩ := (Plan.decode_eq_ok hplan).mp hdecode
  have hslotsOf : d.plan.slotsOf r.fields = slots := by
    rw [hrecord, Plan.slotsOf_record hplan hslots.length_eq]
  have hlength := hslots.stop_eq hfields
  rw [hwhole, Nat.zero_add] at hlength
  rw [Plan.padding, hslotsOf]
  refine ⟨_, Plan.encode_of_occupy hfields hslotsOf hslots, hlength.symm, ?_⟩
  constructor
  · rintro ⟨r', hdecode', hsame⟩
    obtain ⟨slots', hslots', hrecord', _⟩ := (Plan.decode_eq_ok hplan).mp hdecode'
    have heq : slots' = slots := by
      rw [← hslotsOf, ← hsame, hrecord', Plan.slotsOf_record hplan hslots'.length_eq]
    rw [heq] at hslots'
    -- The fields are as long in what was written as in the input, and they fit into it.
    have hlength' := hslots'.stop_eq hfields
    have hfits := hslots'.stop_le_length (Nat.zero_le _)
    omega
  · intro hpadding
    rw [hpadding, Nat.add_zero] at hlength
    rw [hwhole] at hslots
    have hagain := hslots.transfer hfields hlength.symm (by simp [hlength]) hpadding
    have hread := (Plan.decode_eq_ok hplan (d := ⟨r.fields,
      (d.plan.annotate ⟨some (Plan.written d.plan.fields slots), slots⟩).1,
      (d.plan.annotate ⟨some (Plan.written d.plan.fields slots), slots⟩).2,
      input.length⟩)).mpr ⟨slots, hagain, hrecord, rfl⟩
    exact ⟨_, hread, rfl⟩

/-- A count, as much padding, a truth value and a number. -/
def paddedSource : String :=
  "protocol P \x7b message M \x7b uint8 n; void pad length(n); bool flag; uint8 last; \x7d \x7d"

theorem encode_decode_unpadded : ∃ d r out, compile paddedSource {} = .ok d ∧
    d.plan.decode [0, 7, 255] = .ok r ∧ d.plan.encode r.fields = .ok out ∧ out.length = 3 ∧
      ∃ r', d.plan.decode out = .ok r' ∧ r'.fields = r.fields := by
  have hrun : (compile paddedSource {}).toOption.any (fun d =>
      decide (∀ f ∈ d.plan.fields, f.type.isFloat = false) &&
        (decide (∀ f ∈ d.plan.fields, f.InputFree) &&
          (d.plan.decode [0, 7, 255]).toOption.any fun r =>
            decide (r.consumed = 3 ∧ d.plan.padding r.fields = 0))) = true := by
    decide +kernel
  obtain ⟨d, hcompile, hrun⟩ := exists_eq_ok_of_any hrun
  obtain ⟨hfloat, hrun⟩ := Bool.and_eq_true_iff.mp hrun
  obtain ⟨hfree, hrun⟩ := Bool.and_eq_true_iff.mp hrun
  obtain ⟨r, hdecode, hrun⟩ := exists_eq_ok_of_any hrun
  obtain ⟨hwhole, hpadding⟩ := of_decide_eq_true hrun
  obtain ⟨out, hencode, hlength, hagain⟩ := encode_decode_iff_padding hcompile
    (of_decide_eq_true hfloat) (of_decide_eq_true hfree) hdecode hwhole
  rw [hpadding] at hlength
  exact ⟨d, r, out, hcompile, hdecode, hencode, hlength, hagain.mpr hpadding⟩

/-- Two bytes of padding are read but not written, so that what is written is not read again. -/
theorem encode_decode_padded : ∃ d r out, compile paddedSource {} = .ok d ∧
    (∀ f ∈ d.plan.fields, f.type.isFloat = false) ∧ (∀ f ∈ d.plan.fields, f.InputFree) ∧
      d.plan.decode [2, 0, 0, 1, 255] = .ok r ∧ r.consumed = 5 ∧
        d.plan.encode r.fields = .ok out ∧
          ¬∃ r', d.plan.decode out = .ok r' ∧ r'.fields = r.fields := by
  have hrun : (compile paddedSource {}).toOption.any (fun d =>
      decide (∀ f ∈ d.plan.fields, f.type.isFloat = false) &&
        (decide (∀ f ∈ d.plan.fields, f.InputFree) &&
          (d.plan.decode [2, 0, 0, 1, 255]).toOption.any fun r => decide (r.consumed = 5) &&
            (d.plan.encode r.fields).toOption.any fun out =>
              (d.plan.decode out).toOption.isNone)) = true := by
    decide +kernel
  obtain ⟨d, hcompile, hrun⟩ := exists_eq_ok_of_any hrun
  obtain ⟨hfloat, hrun⟩ := Bool.and_eq_true_iff.mp hrun
  obtain ⟨hfree, hrun⟩ := Bool.and_eq_true_iff.mp hrun
  obtain ⟨r, hdecode, hrun⟩ := exists_eq_ok_of_any hrun
  obtain ⟨hwhole, hrun⟩ := Bool.and_eq_true_iff.mp hrun
  obtain ⟨out, hencode, hfails⟩ := exists_eq_ok_of_any hrun
  refine ⟨d, r, out, hcompile, of_decide_eq_true hfloat, of_decide_eq_true hfree, hdecode,
    of_decide_eq_true hwhole, hencode, ?_⟩
  rintro ⟨r', hagain, _⟩
  rw [hagain] at hfails
  cases hfails

end WireSpec
