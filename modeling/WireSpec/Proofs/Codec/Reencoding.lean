import WireSpec.Proofs.Codec.Writing
/-!
# The bytes of a message that is written again

A message that was read whole is written again in as many bytes.  They are the same bytes exactly
where the input was canonical: a truth value can be read from any byte but is written as zero or
one, and padding is written as zeros.
-/

namespace WireSpec

namespace FieldPlan

/-- Bytes that are written for what is read from them. -/
def IsCanonical (f : FieldPlan) (raw : Bytes) : Prop :=
  (f.type = .bool → ∀ b ∈ raw, b = 0 ∨ b = 1) ∧ (f.type = .void → ∀ b ∈ raw, b = 0)

instance (f : FieldPlan) : Decidable f.IsComputedPadding :=
  match hwidth : f.width with
  | .dynamic e => decidable_of_iff (f.type = .void) ⟨fun h => ⟨h, e, hwidth⟩, And.left⟩
  | .fixed _ => .isFalse fun ⟨_, e, he⟩ => by simp [hwidth] at he
  | .remaining => .isFalse fun ⟨_, e, he⟩ => by simp [hwidth] at he

variable {f : FieldPlan} {input raw : Bytes} {slots : List (Option Value)} {start stop : Nat}
  {slot : Option Value}

theorem canonical_bool_eq_iff (b : UInt8) (order : ByteOrder) :
    (if order.read [b] = 0 then 0 else 1) = b ↔ b = 0 ∨ b = 1 := by
  rw [ByteOrder.read_singleton]
  by_cases hzero : b = 0
  · simp [hzero]
  · have hnat : b.toNat ≠ 0 := fun h => hzero (UInt8.toNat_inj.mp h)
    simp [hnat, hzero, eq_comm]

theorem canonical_eq_iff (hf : f.Sized) (hraw : ∀ n, f.width = .fixed n → raw.length = n)
    (hpadding : ¬f.IsComputedPadding) : f.canonical raw = raw ↔ f.IsCanonical raw := by
  cases htype : f.type with
  | bool =>
      have hlength : raw.length = 1 := hf.length_eq hraw (by simp [htype, ScalarType.fixedWidth])
      obtain ⟨b, rfl⟩ := List.length_eq_one_iff.mp hlength
      simp [canonical, IsCanonical, htype, canonical_bool_eq_iff]
  | void =>
      have hsize : f.fixedWidth.getD 0 = raw.length := by
        have hlength := length_canonical hf hraw hpadding
        simpa [canonical, htype] using hlength
      have hzeros : List.replicate raw.length 0 = raw ↔ ∀ b ∈ raw, b = 0 := by
        rw [eq_comm, List.eq_replicate_iff]
        simp
      simpa [canonical, IsCanonical, htype, hsize] using hzeros
  | int | float32 | float64 | string | bytes | char => simp [canonical, IsCanonical, htype]

theorem Occupies.written_eq_iff (hf : f.Restores) (hpadding : ¬f.IsComputedPadding)
    (h : f.Occupies input slots start stop slot) :
    f.written slot = (input.drop start).take (stop - start) ↔
      f.IsCanonical ((input.drop start).take (stop - start)) := by
  cases slot with
  | none =>
      obtain ⟨_, rfl⟩ := occupies_none.mp h
      simp [written, IsCanonical]
  | some v =>
      rw [written_of_encode (h.encode_eq hf)]
      exact canonical_eq_iff hf.sized (fun n => h.length_raw_of_fixed) hpadding

end FieldPlan

namespace Plan

/-- The bytes of every field are those that are written for it. -/
def IsCanonical (p : Plan) (input : Bytes) (offsets : Nat → Nat) : Prop :=
  ∀ i (hi : i < p.fields.length),
    p.fields[i].IsCanonical ((input.drop (offsets i)).take (offsets (i + 1) - offsets i))

variable {input : Bytes} {all slots : List (Option Value)} {fields : List FieldPlan}
  {start stop : Nat} {offsets : Nat → Nat}

theorem Occupy.stop_eq_of_not_isComputedPadding (hfields : ∀ f ∈ fields, f.Restores)
    (hpadding : ∀ f ∈ fields, ¬f.IsComputedPadding)
    (h : Occupy input all fields start slots stop) :
    stop = start + (written fields slots).length := by
  induction h with
  | nil => rfl
  | @cons f rest slot slots start next stop first _ ih =>
      obtain ⟨hf, hrest⟩ := List.forall_mem_cons.mp hfields
      obtain ⟨hfpadding, hrestpadding⟩ := List.forall_mem_cons.mp hpadding
      have hnext := first.stop_eq_of_not_isComputedPadding hf hfpadding
      have hstop := ih hrest hrestpadding
      rw [written_cons, List.length_append]
      omega

theorem take_drop_append (input : Bytes) {start next stop : Nat} (hstart : start ≤ next)
    (hnext : next ≤ stop) :
    (input.drop start).take (stop - start) =
      (input.drop start).take (next - start) ++ (input.drop next).take (stop - next) := by
  have hsize : stop - start = (next - start) + (stop - next) := by omega
  have hbegin : start + (next - start) = next := by omega
  rw [hsize, List.take_add, List.drop_drop, hbegin]

/-- Fields between offsets are written as the bytes they were read from if each of them is. -/
theorem written_eq_iff (hfields : ∀ f ∈ fields, f.Restores)
    (hpadding : ∀ f ∈ fields, ¬f.IsComputedPadding) (hlength : slots.length = fields.length)
    (hfield : ∀ i (hi : i < fields.length) (hs : i < slots.length),
      fields[i].Occupies input all (offsets i) (offsets (i + 1)) slots[i]) :
    written fields slots =
        (input.drop (offsets 0)).take (offsets fields.length - offsets 0) ↔
      ∀ i (hi : i < fields.length),
        fields[i].IsCanonical ((input.drop (offsets i)).take (offsets (i + 1) - offsets i)) := by
  -- The first field is written in as many bytes as it was read from, so equality of the whole
  -- splits behind it.
  induction fields generalizing slots offsets with
  | nil => simp [written]
  | cons f rest ih =>
      obtain ⟨slot, slots, rfl⟩ := List.exists_cons_of_length_eq_add_one hlength
      obtain ⟨hf, hrest⟩ := List.forall_mem_cons.mp hfields
      obtain ⟨hfpadding, hrestpadding⟩ := List.forall_mem_cons.mp hpadding
      have hfirst : f.Occupies input all (offsets 0) (offsets 1) slot :=
        hfield 0 (Nat.zero_lt_succ _) (Nat.zero_lt_succ _)
      have hlength' : slots.length = rest.length := by simpa using hlength
      have hlater (i : Nat) (hi : i < rest.length) (hs : i < slots.length) :
          rest[i].Occupies input all (offsets (i + 1)) (offsets (i + 2)) slots[i] :=
        hfield (i + 1) (Nat.succ_lt_succ hi) (Nat.succ_lt_succ hs)
      have hrec := @ih slots (fun i => offsets (i + 1)) hrest hrestpadding hlength' hlater
      have hbehind : Occupy input all rest (offsets 1) slots (offsets (rest.length + 1)) :=
        occupy_iff_offsets.mpr ⟨fun i => offsets (i + 1), rfl, rfl, hlength', hlater⟩
      have hsize := hbehind.stop_eq_of_not_isComputedPadding hrest hrestpadding
      have hfirstSize := hfirst.stop_eq_of_not_isComputedPadding hf hfpadding
      have hraw : (f.written slot).length =
          ((input.drop (offsets 0)).take (offsets 1 - offsets 0)).length := by
        rw [hfirst.length_raw]
        omega
      have hsplit := take_drop_append input hfirst.start_le_stop
        (show offsets 1 ≤ offsets (rest.length + 1) by omega)
      change f.written slot ++ written rest slots =
        (input.drop (offsets 0)).take (offsets (rest.length + 1) - offsets 0) ↔ _
      rw [hsplit]
      constructor
      · intro hwritten i hi
        obtain ⟨hwritten, hlater⟩ := List.append_inj hwritten hraw
        cases i with
        | zero => exact (hfirst.written_eq_iff hf hfpadding).mp hwritten
        | succ i => exact hrec.mp hlater i (Nat.lt_of_succ_lt_succ hi)
      · intro hcanonical
        have hwritten := (hfirst.written_eq_iff hf hfpadding).mpr
          (hcanonical 0 (Nat.zero_lt_succ _))
        have hwrittenLater := hrec.mpr fun i hi => hcanonical (i + 1) (Nat.succ_lt_succ hi)
        rw [hwritten, hwrittenLater]

/-- A layout of a whole input is written in as many bytes, and as the input if it is canonical. -/
theorem Layout.written_eq_iff {p : Plan} (hfields : ∀ f ∈ p.fields, f.Restores)
    (hpadding : ∀ f ∈ p.fields, ¬f.IsComputedPadding)
    (h : p.Layout input slots offsets input.length) :
    (written p.fields slots).length = input.length ∧
      (written p.fields slots = input ↔ p.IsCanonical input offsets) := by
  have hoccupy := occupy_iff_layout.mpr ⟨offsets, h⟩
  have hlength := hoccupy.stop_eq_of_not_isComputedPadding hfields hpadding
  have hwhole : (input.drop (offsets 0)).take (offsets p.fields.length - offsets 0) = input := by
    rw [h.begins, h.ends, List.drop_zero, Nat.sub_zero, List.take_length]
  have hpieces := Plan.written_eq_iff hfields hpadding h.length_slots h.field
  rw [hwhole] at hpieces
  exact ⟨by omega, hpieces⟩

end Plan

/-- Without float fields and without padding of computed size, an input that is read whole is written
again in as many bytes, and in the same bytes exactly if every byte of a truth value is zero or one
and every byte of padding is zero. -/
theorem encode_decode_eq_iff_canonical {source : String} {o : Options} {d : Decoder}
    (h : compile source o = .ok d) (hfloat : ∀ f ∈ d.plan.fields, f.type.isFloat = false)
    (hpadding : ∀ f ∈ d.plan.fields, ¬f.IsComputedPadding) {input : Bytes} {r : Decoded}
    (hdecode : d.plan.decode input = .ok r) (hwhole : r.consumed = input.length) :
    (∃ slots offsets, d.plan.Layout input slots offsets input.length) ∧
      ∀ slots offsets, d.plan.Layout input slots offsets input.length →
        ∃ out, d.plan.encode r.fields = .ok out ∧ out.length = input.length ∧
          (out = input ↔ d.plan.IsCanonical input offsets) := by
  have hplan := wellFormed_of_compile h
  have hfields : ∀ f ∈ d.plan.fields, f.Restores := fun f hf => ⟨hplan.sized f hf, hfloat f hf⟩
  obtain ⟨slots, hslots, hrecord, _⟩ := (Plan.decode_eq_ok hplan).mp hdecode
  have hencode : d.plan.encode r.fields = .ok (Plan.written d.plan.fields slots) := by
    refine Plan.encode_of_restores hfields ?_ hslots
    rw [hrecord]
    exact Plan.map_lookup_record hplan.names_nodup hslots.length_eq
  rw [hwhole] at hslots
  refine ⟨⟨slots, Plan.occupy_iff_layout.mp hslots⟩, ?_⟩
  intro slots' offsets hlayout
  have hslots' := Plan.occupy_iff_layout.mpr ⟨offsets, hlayout⟩
  obtain ⟨rfl, _⟩ := hslots.unique hplan hslots'
  obtain ⟨hlength, hsame⟩ := hlayout.written_eq_iff hfields hpadding
  exact ⟨_, hencode, hlength, hsame⟩

/-- A count, a truth value, two bytes of padding, a text of so many code units, and an optional field
for which nothing is left. -/
def flaggedSource : String :=
  "protocol P \x7b message M \x7b uint8 n; bool flag; void pad length(2); " ++
    "string s length(n * 2) encoding(utf16le) validate(this.length == 6 && s.length == n); " ++
    "optional uint8 more; \x7d \x7d"

theorem encode_decode_eq_iff_canonical_flagged : ∃ d r, compile flaggedSource {} = .ok d ∧
    d.plan.decode [1, 1, 0, 0, 65, 0] = .ok r ∧
      d.plan.encode r.fields = .ok [1, 1, 0, 0, 65, 0] ∧
        ∃ slots offsets, d.plan.Layout [1, 1, 0, 0, 65, 0] slots offsets 6 ∧
          d.plan.IsCanonical [1, 1, 0, 0, 65, 0] offsets := by
  have hrun : (compile flaggedSource {}).toOption.any (fun d =>
      decide (∀ f ∈ d.plan.fields, f.type.isFloat = false) &&
        (decide (∀ f ∈ d.plan.fields, ¬f.IsComputedPadding) &&
          (d.plan.decode [1, 1, 0, 0, 65, 0]).toOption.any fun r =>
            decide (r.consumed = 6) &&
              decide ((d.plan.encode r.fields).toOption = some [1, 1, 0, 0, 65, 0]))) = true := by
    decide +kernel
  obtain ⟨d, hcompile, hrun⟩ := exists_eq_ok_of_any hrun
  obtain ⟨hfloat, hrun⟩ := Bool.and_eq_true_iff.mp hrun
  obtain ⟨hpadding, hrun⟩ := Bool.and_eq_true_iff.mp hrun
  obtain ⟨r, hdecode, hrun⟩ := exists_eq_ok_of_any hrun
  obtain ⟨hwhole, hsame⟩ := Bool.and_eq_true_iff.mp hrun
  obtain ⟨⟨slots, offsets, hlayout⟩, hwritten⟩ := encode_decode_eq_iff_canonical hcompile
    (of_decide_eq_true hfloat) (of_decide_eq_true hpadding) hdecode (of_decide_eq_true hwhole)
  obtain ⟨out, hencode, _, hcanonical⟩ := hwritten slots offsets hlayout
  have hout : out = [1, 1, 0, 0, 65, 0] :=
    Except.ok.inj (hencode.symm.trans (eq_ok_of_toOption (of_decide_eq_true hsame)))
  exact ⟨d, r, hcompile, hdecode, hout ▸ hencode, slots, offsets, hlayout, hcanonical.mp hout⟩

end WireSpec
