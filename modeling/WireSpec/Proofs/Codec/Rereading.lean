import WireSpec.Proofs.Codec.FieldValues
import WireSpec.Proofs.Codec.Reencoding
/-!
# Reading a message that was written

Writing checks the fixed widths of a plan and evaluates no formula, so a record can be written whose
sizes disagree with its length formulas, or which leaves an optional field out in front of others.
`Plan.Fits` says that neither is the case.  What was written of a record that fits is read as this
record, provided that it passes the checks of its values; and a record that does not fit is never
read back.
-/

namespace WireSpec

namespace FieldPlan

/-- The field without the checks of its value. -/
def unchecked (f : FieldPlan) : FieldPlan := { f with range := none, validate := none }

/-- The length formula of a field, where it has one, gives this size. -/
def Measures (f : FieldPlan) (env : Env) (size : Nat) : Prop :=
  ∀ e, f.width = .dynamic e →
    ∃ n : Int128, e.eval env = .ok (.int n) ∧ IntKind.u64.Holds n.val ∧ n.val = size

instance (f : FieldPlan) (env : Env) (size : Nat) : Decidable (f.Measures env size) :=
  match hwidth : f.width with
  | .fixed _ | .remaining => .isTrue (by simp [Measures, hwidth])
  | .dynamic e =>
      match heval : e.eval env with
      | .ok (.int n) =>
          decidable_of_iff (IntKind.u64.Holds n.val ∧ n.val = size) (by
            constructor
            · intro hsize e' he
              cases hwidth.symm.trans he
              exact ⟨n, heval, hsize⟩
            · intro hmeasures
              obtain ⟨m, hm, hsize⟩ := hmeasures e hwidth
              cases heval.symm.trans hm
              exact hsize)
      | .ok (.float _) | .ok (.bool _) | .ok (.string _) | .ok (.bytes _) | .ok .null | .error _ =>
          .isFalse (by simp [Measures, hwidth, heval])

instance (f : FieldPlan) (env : Env) (v : Value) : Decidable (f.InRange env v) :=
  decidable_of_iff ((f.checkRange env v).isOk = true) (by
    rw [← checkRange_eq_ok]
    cases f.checkRange env v <;> simp [Except.isOk, Except.toBool])

instance (f : FieldPlan) (env : Env) : Decidable (f.Valid env) :=
  decidable_of_iff ((f.checkValid env).isOk = true) (by
    rw [← checkValid_eq_ok]
    cases f.checkValid env <;> simp [Except.isOk, Except.toBool])

variable {f : FieldPlan} {input raw : Bytes} {all : List (Option Value)} {start stop : Nat}
  {slot : Option Value} {v : Value}

theorem inRange_unchecked (f : FieldPlan) (env : Env) (v : Value) : f.unchecked.InRange env v := by
  simp [InRange, unchecked]

theorem valid_unchecked (f : FieldPlan) (env : Env) : f.unchecked.Valid env := by
  simp [Valid, unchecked]

theorem occupies_iff_unchecked : f.Occupies input all start stop slot ↔
    f.unchecked.Occupies input all start stop slot ∧
      ∀ v ∈ slot, f.InRange ⟨some input, all⟩ v ∧ f.Valid ⟨some input, all⟩ := by
  cases slot with
  | none =>
      rw [occupies_none, occupies_none]
      exact ⟨fun h => ⟨h, by simp⟩, And.left⟩
  | some v =>
      rw [occupies_some, occupies_some]
      constructor
      · rintro ⟨hpresent, hstart, hstop, htakes, hdecode, hin, hvalid⟩
        refine ⟨⟨hpresent, hstart, hstop, htakes, hdecode, ?_, ?_⟩, ?_⟩
        · exact inRange_unchecked f _ v
        · exact valid_unchecked f _
        · rintro _ ⟨⟩
          exact ⟨hin, hvalid⟩
      · rintro ⟨⟨hpresent, hstart, hstop, htakes, hdecode, _, _⟩, hchecks⟩
        obtain ⟨hin, hvalid⟩ := hchecks v rfl
        exact ⟨hpresent, hstart, hstop, htakes, hdecode, hin, hvalid⟩

theorem takes_of_encode {env : Env} (hencode : f.encode v = .ok raw)
    (hlength : f.Measures env raw.length)
    (hrest : f.width = .remaining → raw.length = input.length - start) :
    f.Takes env input start raw.length := by
  unfold Takes
  cases hwidth : f.width with
  | fixed n => exact (encode_eq_ok.mp hencode).2 n hwidth
  | remaining => exact hrest hwidth
  | dynamic e => exact hlength e hwidth

end FieldPlan

namespace Plan

/-- The values are of the kinds that decoding gives for the fields. -/
def Typed (p : Plan) (values : Record) : Prop :=
  ∀ f ∈ p.fields, ∀ v ∈ values.lookup f.name, v.type = f.type

/-- Every length formula gives, over what was written and the values it was written from, the number
of bytes that were written for its field. -/
def LengthsFit (p : Plan) (values : Record) (out : Bytes) : Prop :=
  ∀ f ∈ p.fields, ∀ v ∈ slotFor values f,
    f.Measures ⟨some out, p.slotsFor values⟩ (f.written (some v)).length

instance (p : Plan) (values : Record) : Decidable (p.Typed values) :=
  inferInstanceAs (Decidable (∀ f ∈ p.fields, ∀ v ∈ values.lookup f.name, v.type = f.type))

instance (p : Plan) (values : Record) (out : Bytes) : Decidable (p.LengthsFit values out) :=
  inferInstanceAs (Decidable (∀ f ∈ p.fields, ∀ v ∈ slotFor values f,
    f.Measures ⟨some out, p.slotsFor values⟩ (f.written (some v)).length))

/-- A record that can be read back from what it is written as: the lengths agree, and an optional
field is missing exactly where nothing is written for it and the fields behind it. -/
structure Fits (p : Plan) (values : Record) (out : Bytes) : Prop where
  lengths : p.LengthsFit values out
  missing : ∀ f rest, f :: rest <:+ p.fields → f.optional = true →
    (values.lookup f.name = none ↔ written (f :: rest) ((f :: rest).map (slotFor values)) = [])

def unchecked (p : Plan) : Plan := { p with fields := p.fields.map FieldPlan.unchecked }

variable {p : Plan} {values : Record} {input out : Bytes} {all : List (Option Value)}
  {fields : List FieldPlan} {start stop : Nat} {f : FieldPlan} {v : Value}
  {g : FieldPlan → Option Value}

theorem WellFormed.unchecked (hp : p.WellFormed) : p.unchecked.WellFormed := by
  refine ⟨?_, ?_, ?_⟩
  · simpa [Plan.unchecked, FieldPlan.unchecked, Function.comp_def] using hp.names_nodup
  · intro i hi
    have hi' : i < p.fields.length := by simpa [Plan.unchecked] using hi
    have hfield : p.unchecked.fields[i] = p.fields[i].unchecked := List.getElem_map _
    rw [hfield]
    exact ⟨(hp.scopes i hi').width, by simp [FieldPlan.unchecked], by simp [FieldPlan.unchecked]⟩
  · intro f hf
    obtain ⟨g, hg, rfl⟩ := List.mem_map.mp hf
    exact ⟨(hp.sized g hg).fixed, (hp.sized g hg).void⟩

theorem Occupy.unchecked {slots : List (Option Value)}
    (h : Occupy input all fields start slots stop) :
    Occupy input all (fields.map FieldPlan.unchecked) start slots stop := by
  induction h with
  | nil => exact .nil
  | cons first _ ih => exact .cons (FieldPlan.occupies_iff_unchecked.mp first).1 ih

theorem occupy_of_unchecked
    (h : Occupy input all (fields.map FieldPlan.unchecked) start (fields.map g) stop)
    (hchecks : ∀ f ∈ fields, ∀ v ∈ g f,
      f.InRange ⟨some input, all⟩ v ∧ f.Valid ⟨some input, all⟩) :
    Occupy input all fields start (fields.map g) stop := by
  induction fields generalizing start with
  | nil =>
      cases h
      exact .nil
  | cons f rest ih =>
      obtain ⟨hfirst, hrest⟩ := List.forall_mem_cons.mp hchecks
      obtain _ | ⟨hoccupies, hlater⟩ := h
      exact .cons (FieldPlan.occupies_iff_unchecked.mpr ⟨hoccupies, hfirst⟩) (ih hlater hrest)

theorem type_of_slotFor (htyped : p.Typed values) (hf : f ∈ p.fields)
    (h : slotFor values f = some v) : v.type = f.type := by
  unfold slotFor at h
  split at h
  · rename_i w hw
    obtain rfl := Option.some.inj h
    exact htyped f hf w hw
  · split at h
    · rename_i hvoid
      obtain rfl := Option.some.inj h
      exact hvoid.2.symm
    · cases h

section Written

variable (hfields : ∀ f ∈ p.fields, f.Restores)
  (hlast : ∀ f rest, f :: rest <:+ p.fields → f.width = .remaining → rest = [])
  (htyped : p.Typed values) (hfits : p.Fits values out)

include hfields hlast htyped hfits

theorem Fits.occupies_unchecked {rest : List FieldPlan} {raw later : Bytes}
    (hsuffix : f :: rest <:+ p.fields) (hfirst : f.Writes (slotFor values f) raw)
    (hlater : Writes rest (rest.map (slotFor values)) later) (hstart : start ≤ out.length)
    (hout : out.drop start = raw ++ later) :
    f.unchecked.Occupies out (p.slotsFor values) start (start + raw.length)
      (slotFor values f) := by
  have hf : f ∈ p.fields := hsuffix.mem List.mem_cons_self
  have hbehind : written (f :: rest) ((f :: rest).map (slotFor values)) = out.drop start := by
    rw [hout]
    exact (Writes.cons hfirst hlater).written_eq
  -- That nothing is left to read is that nothing is written from here on, which for an optional
  -- field is that the record leaves it out.
  have hend : written (f :: rest) ((f :: rest).map (slotFor values)) = [] ↔ out.length ≤ start := by
    rw [hbehind, List.drop_eq_nil_iff]
  have hroom : out.length = start + (raw.length + later.length) := by
    have hlength := congrArg List.length hout
    rw [List.length_drop, List.length_append] at hlength
    omega
  cases hslot : slotFor values f with
  | none =>
      rw [hslot] at hfirst
      obtain ⟨hoptional, rfl⟩ := hfirst
      have hmissing : values.lookup f.name = none := by rwa [slotFor_of_optional hoptional] at hslot
      have hnothing := hend.mp ((hfits.missing f rest hsuffix hoptional).mp hmissing)
      exact FieldPlan.occupies_none.mpr ⟨⟨hoptional, hnothing⟩, rfl⟩
  | some v =>
      rw [hslot] at hfirst
      have hencode : f.encode v = .ok raw := hfirst
      have hpresent : ¬(f.optional = true ∧ out.length ≤ start) := by
        rintro ⟨hoptional, hnothing⟩
        have hmissing := (hfits.missing f rest hsuffix hoptional).mpr (hend.mpr hnothing)
        rw [slotFor_of_optional hoptional, hmissing] at hslot
        cases hslot
      have hmeasures := hfits.lengths f hf v hslot
      rw [FieldPlan.written_of_encode hencode] at hmeasures
      have hremaining : f.width = .remaining → raw.length = out.length - start := by
        intro hwidth
        obtain rfl := hlast f rest hsuffix hwidth
        cases hlater
        rw [hroom]
        simp
      have hdecode : f.decode raw = .ok v :=
        FieldPlan.decode_of_encode (hfields f hf).not_float (type_of_slotFor htyped hf hslot) hencode
      have hraw : (out.drop start).take raw.length = raw := by rw [hout, List.take_left]
      rw [FieldPlan.occupies_some, Nat.add_sub_cancel_left, hraw]
      refine ⟨hpresent, Nat.le_add_right _ _, by omega, ?_, hdecode, ?_, ?_⟩
      · exact FieldPlan.takes_of_encode hencode hmeasures hremaining
      · exact FieldPlan.inRange_unchecked f _ v
      · exact FieldPlan.valid_unchecked f _

/-- The fields of a record that fits lie in what was written, checks of the values apart. -/
theorem Fits.occupy_unchecked (hsuffix : fields <:+ p.fields) {later : Bytes}
    (hwrites : Writes fields (fields.map (slotFor values)) later) (hstart : start ≤ out.length)
    (hout : out.drop start = later) :
    Occupy out (p.slotsFor values) (fields.map FieldPlan.unchecked) start
      (fields.map (slotFor values)) out.length := by
  -- By induction on the fields still to be read; what is left of the bytes is what they were
  -- written as.
  induction fields generalizing start later with
  | nil =>
      cases hwrites
      have hend : start = out.length := by
        have hle := List.drop_eq_nil_iff.mp hout
        omega
      rw [hend]
      exact .nil
  | cons f rest ih =>
      obtain _ | ⟨hfirst, hlater⟩ := hwrites
      rename_i raw later
      have hoccupies := Fits.occupies_unchecked hfields hlast htyped hfits hsuffix hfirst hlater
        hstart hout
      have hnext : out.drop (start + raw.length) = later := by
        rw [← List.drop_drop, hout, List.drop_left]
      have hroom : start + raw.length ≤ out.length := by
        have hlength := congrArg List.length hout
        rw [List.length_drop, List.length_append] at hlength
        omega
      exact .cons hoccupies (ih ((List.suffix_cons f rest).trans hsuffix) hlater hroom hnext)

end Written

theorem record_map (fields : List FieldPlan) (g : FieldPlan → Option Value) :
    record fields (fields.map g) = fields.filterMap fun f => (g f).map (f.name, ·) := by
  induction fields with
  | nil => rfl
  | cons f rest ih =>
      rw [List.map_cons, record_cons, ih]
      cases hslot : g f <;> simp [hslot]

theorem Writes.exists_of_mem (h : Writes fields (fields.map g) out) (hf : f ∈ fields) :
    ∃ raw, f.Writes (g f) raw := by
  induction fields generalizing out with
  | nil => cases hf
  | cons first rest ih =>
      obtain _ | ⟨hfirst, hlater⟩ := h
      rcases List.mem_cons.mp hf with rfl | hf
      · exact ⟨_, hfirst⟩
      · exact ih hlater hf

theorem slotFor_of_writes {raw : Bytes} (hoptional : f.optional = false)
    (h : f.Writes (slotFor values f) raw) :
    slotFor values f = some ((values.lookup f.name).getD .null) := by
  unfold slotFor at h ⊢
  cases hvalue : values.lookup f.name with
  | some v => rfl
  | none =>
      by_cases hvoid : f.type = .void
      · simp [hoptional, hvoid]
      · simp [hvalue, hvoid, FieldPlan.Writes, hoptional] at h

/-- Where the bytes that were read are no more than those that are written, every field is read from as
many bytes as it is written in, and so are the fields from it on. -/
theorem Occupy.exists_of_suffix (hfields : ∀ f ∈ fields, f.Restores)
    (h : Occupy input all fields start (fields.map g) stop)
    (hreach : stop ≤ start + (written fields (fields.map g)).length) {rest : List FieldPlan}
    (hsuffix : f :: rest <:+ fields) :
    ∃ start', f.Occupies input all start' (start' + (f.written (g f)).length) (g f) ∧
      stop = start' + (written (f :: rest) ((f :: rest).map g)).length := by
  -- Each field takes at least the bytes it is written in, so none can take more.
  induction fields generalizing start with
  | nil => exact absurd (List.suffix_nil.mp hsuffix) (List.cons_ne_nil _ _)
  | cons first later ih =>
      obtain ⟨hfirst, hlater⟩ := List.forall_mem_cons.mp hfields
      obtain _ | ⟨hoccupies, hbehind⟩ := h
      rename_i next
      have hnext := hoccupies.add_length_written_le hfirst
      have hstop := hbehind.add_length_written_le hlater
      rw [List.map_cons, written_cons, List.length_append] at hreach
      rcases List.suffix_cons_iff.mp hsuffix with heq | hsuffix
      · obtain ⟨rfl, rfl⟩ := List.cons.inj heq
        obtain rfl : next = start + (f.written (g f)).length := by omega
        refine ⟨start, hoccupies, ?_⟩
        rw [List.map_cons, written_cons, List.length_append]
        omega
      · exact ih hlater hbehind (by omega) hsuffix

/-- A record that is read back from what it was written as fits. -/
theorem fits_of_occupy (hfields : ∀ f ∈ p.fields, f.Restores)
    (hwrites : Writes p.fields (p.slotsFor values) out)
    (h : Occupy out (p.slotsFor values) p.fields 0 (p.slotsFor values) stop) :
    p.Fits values out := by
  have hwritten : written p.fields (p.slotsFor values) = out := hwrites.written_eq
  have hstop : stop = out.length := by
    have hleast := h.add_length_written_le hfields
    have hmost := h.stop_le_length (Nat.zero_le _)
    rw [hwritten] at hleast
    omega
  have hreach : stop ≤ 0 + (written p.fields (p.slotsFor values)).length := by
    rw [hwritten, Nat.zero_add, hstop]
  refine ⟨?lengths, ?missing⟩
  case lengths =>
    intro f hf v hv e hwidth
    obtain ⟨front, rest, hp⟩ := List.append_of_mem hf
    obtain ⟨start, hoccupies, _⟩ := h.exists_of_suffix hfields hreach ⟨front, hp.symm⟩
    rw [Option.mem_def.mp hv] at hoccupies
    obtain ⟨_, _, _, htakes, _⟩ := FieldPlan.occupies_some.mp hoccupies
    rw [Nat.add_sub_cancel_left] at htakes
    simpa only [FieldPlan.Takes, hwidth] using htakes
  case missing =>
    intro f rest hsuffix hoptional
    obtain ⟨start, hoccupies, hbehind⟩ := h.exists_of_suffix hfields hreach hsuffix
    have hend : written (f :: rest) ((f :: rest).map (slotFor values)) = [] ↔
        out.length ≤ start := by
      rw [← List.length_eq_zero_iff]
      omega
    rw [hend, ← slotFor_of_optional hoptional]
    cases hslot : slotFor values f with
    | none =>
        rw [hslot] at hoccupies
        simpa using (FieldPlan.occupies_none.mp hoccupies).1.2
    | some v =>
        rw [hslot] at hoccupies
        have hpresent := (FieldPlan.occupies_some.mp hoccupies).1
        simpa [hoptional] using hpresent

end Plan

section Compiled

variable {source : String} {o : Options} {d : Decoder} {values : Record} {out : Bytes}

theorem occupy_unchecked_of_compile (h : compile source o = .ok d)
    (hfloat : ∀ f ∈ d.plan.fields, f.type.isFloat = false) (htyped : d.plan.Typed values)
    (hencode : d.plan.encode values = .ok out) (hfits : d.plan.Fits values out) :
    Plan.Occupy out (d.plan.slotsFor values) d.plan.unchecked.fields 0 (d.plan.slotsFor values)
      out.length := by
  have hplan := wellFormed_of_compile h
  have hfields : ∀ f ∈ d.plan.fields, f.Restores := fun f hf => ⟨hplan.sized f hf, hfloat f hf⟩
  exact Plan.Fits.occupy_unchecked hfields (fun f rest => eq_nil_of_remaining h) htyped hfits
    (List.suffix_refl _) (Plan.encode_eq_ok.mp hencode) (Nat.zero_le _) List.drop_zero

/-- Without optional fields and float fields, what a record of values of the right kinds is written as
is read as these values, if over the bytes and the values every length formula gives the number of
bytes that were written for its field, every range holds and every validation is true. -/
theorem decode_encode_of_consistent (h : compile source o = .ok d)
    (hoptional : ∀ f ∈ d.plan.fields, f.optional = false)
    (hfloat : ∀ f ∈ d.plan.fields, f.type.isFloat = false) (htyped : d.plan.Typed values)
    (hencode : d.plan.encode values = .ok out) (hlengths : d.plan.LengthsFit values out)
    (hrange : ∀ f ∈ d.plan.fields, ∀ v ∈ Plan.slotFor values f,
      f.InRange ⟨some out, d.plan.slotsFor values⟩ v)
    (hvalid : ∀ f ∈ d.plan.fields, f.Valid ⟨some out, d.plan.slotsFor values⟩) :
    ∃ r, d.plan.decode out = .ok r ∧
      r.fields = d.plan.fields.map (fun f => (f.name, (values.lookup f.name).getD .null)) ∧
        r.consumed = out.length := by
  have hfits : d.plan.Fits values out := by
    refine ⟨hlengths, ?_⟩
    intro f rest hsuffix hf
    rw [hoptional f (hsuffix.mem List.mem_cons_self)] at hf
    cases hf
  have hunchecked := occupy_unchecked_of_compile h hfloat htyped hencode hfits
  have hslots : Plan.Occupy out (d.plan.slotsFor values) d.plan.fields 0 (d.plan.slotsFor values)
      out.length :=
    Plan.occupy_of_unchecked hunchecked fun f hf v hv => ⟨hrange f hf v hv, hvalid f hf⟩
  have hwrites := Plan.encode_eq_ok.mp hencode
  have hrecord : Plan.record d.plan.fields (d.plan.slotsFor values) =
      d.plan.fields.map (fun f => (f.name, (values.lookup f.name).getD .null)) := by
    have hfilled : d.plan.slotsFor values =
        d.plan.fields.map fun f => some ((values.lookup f.name).getD .null) := by
      refine List.map_congr_left fun f hf => ?_
      obtain ⟨raw, hraw⟩ := hwrites.exists_of_mem hf
      exact Plan.slotFor_of_writes (hoptional f hf) hraw
    rw [hfilled, Plan.record_map]
    simp
  have hdecode := (Plan.decode_eq_ok (wellFormed_of_compile h) (d := ⟨_, _, _, out.length⟩)).mpr
    ⟨_, hslots, rfl, rfl⟩
  exact ⟨_, hdecode, hrecord, rfl⟩

/-- A count, two bytes of padding, so many bytes, and a text that takes what is left. -/
def consistentSource : String :=
  "protocol P \x7b message M \x7b uint8 n range(1, 9); void pad length(2); " ++
    "bytes data length(n) validate(data.length == n && this[0] == n); " ++
    "string rest encoding(latin1); \x7d \x7d"

def consistentValues : Record :=
  [("rest", .string "é"), ("data", .bytes [7, 8]), ("n", .int .u8 (IntKind.u8.ofBits 2))]

theorem decode_encode_of_consistent_text : ∃ d r, compile consistentSource {} = .ok d ∧
    d.plan.encode consistentValues = .ok [2, 0, 0, 7, 8, 233] ∧
      d.plan.decode [2, 0, 0, 7, 8, 233] = .ok r ∧
        r.fields = d.plan.fields.map
          (fun f => (f.name, (consistentValues.lookup f.name).getD .null)) ∧ r.consumed = 6 := by
  have hrun : (compile consistentSource {}).toOption.any (fun d =>
      decide ((d.plan.encode consistentValues).toOption = some [2, 0, 0, 7, 8, 233]) &&
        decide ((∀ f ∈ d.plan.fields, f.optional = false) ∧
          (∀ f ∈ d.plan.fields, f.type.isFloat = false) ∧ d.plan.Typed consistentValues ∧
            d.plan.LengthsFit consistentValues [2, 0, 0, 7, 8, 233] ∧
              (∀ f ∈ d.plan.fields, ∀ v ∈ Plan.slotFor consistentValues f,
                f.InRange ⟨some [2, 0, 0, 7, 8, 233], d.plan.slotsFor consistentValues⟩ v) ∧
                ∀ f ∈ d.plan.fields,
                  f.Valid ⟨some [2, 0, 0, 7, 8, 233], d.plan.slotsFor consistentValues⟩)) =
        true := by
    decide +kernel
  obtain ⟨d, hcompile, hrun⟩ := exists_eq_ok_of_any hrun
  obtain ⟨hwritten, hrun⟩ := Bool.and_eq_true_iff.mp hrun
  obtain ⟨hoptional, hfloat, htyped, hlengths, hrange, hvalid⟩ := of_decide_eq_true hrun
  have hencode := eq_ok_of_toOption (of_decide_eq_true hwritten)
  obtain ⟨r, hdecode, hfields, hconsumed⟩ := decode_encode_of_consistent hcompile hoptional hfloat
    htyped hencode hlengths hrange hvalid
  exact ⟨d, r, hcompile, hencode, hdecode, hfields, hconsumed⟩

/-- What a record of values of the right kinds is written as is read as this record, as far as it is
about fields of the plan, exactly if the record fits.  Padding that must be there is read as
`null`. -/
theorem decode_encode_eq_iff_fits (h : compile source o = .ok d)
    (hfloat : ∀ f ∈ d.plan.fields, f.type.isFloat = false) (htyped : d.plan.Typed values)
    (hencode : d.plan.encode values = .ok out) {r : Decoded} (hdecode : d.plan.decode out = .ok r) :
    r.fields = Plan.record d.plan.fields (d.plan.slotsFor values) ↔ d.plan.Fits values out := by
  have hplan := wellFormed_of_compile h
  obtain ⟨slots, hslots, hrecord, _⟩ := (Plan.decode_eq_ok hplan).mp hdecode
  constructor
  · intro hsame
    have hslotsFor : slots = d.plan.slotsFor values := by
      rw [← Plan.map_lookup_record hplan.names_nodup hslots.length_eq, ← hrecord, hsame,
        Plan.map_lookup_record hplan.names_nodup (by simp [Plan.slotsFor])]
    subst hslotsFor
    exact Plan.fits_of_occupy (fun f hf => ⟨hplan.sized f hf, hfloat f hf⟩)
      (Plan.encode_eq_ok.mp hencode) hslots
  · intro hfits
    have hwritten := occupy_unchecked_of_compile h hfloat htyped hencode hfits
    have hread : Plan.Occupy out slots d.plan.unchecked.fields 0 slots r.consumed :=
      hslots.unchecked
    obtain ⟨rfl, _⟩ := hread.unique hplan.unchecked hwritten
    exact hrecord

end Compiled

/-- A record is written, and read again as another record. -/
def Misread (source : String) (values : Record) : Prop :=
  ∃ d out r, compile source {} = .ok d ∧ (∀ f ∈ d.plan.fields, f.type.isFloat = false) ∧
    d.plan.Typed values ∧ d.plan.encode values = .ok out ∧ d.plan.decode out = .ok r ∧
      r.fields ≠ Plan.record d.plan.fields (d.plan.slotsFor values)

theorem misread_of_run {source : String} {values : Record}
    (h : (compile source {}).toOption.any (fun d =>
      decide ((∀ f ∈ d.plan.fields, f.type.isFloat = false) ∧ d.plan.Typed values) &&
        (d.plan.encode values).toOption.any fun out => (d.plan.decode out).toOption.any fun r =>
          decide (r.fields ≠ Plan.record d.plan.fields (d.plan.slotsFor values))) = true) :
    Misread source values := by
  obtain ⟨d, hcompile, hrun⟩ := exists_eq_ok_of_any h
  obtain ⟨hkinds, hrun⟩ := Bool.and_eq_true_iff.mp hrun
  obtain ⟨hfloat, htyped⟩ := of_decide_eq_true hkinds
  obtain ⟨out, hencode, hrun⟩ := exists_eq_ok_of_any hrun
  obtain ⟨r, hdecode, hrun⟩ := exists_eq_ok_of_any hrun
  exact ⟨d, out, r, hcompile, hfloat, htyped, hencode, hdecode, of_decide_eq_true hrun⟩

/-- A count with so many bytes, and optional fields behind them. -/
def trailingSource : String :=
  "protocol P \x7b message M \x7b uint8 n; bytes data length(n); optional uint8 more; " ++
    "optional bytes rest; \x7d \x7d"

def trailingValues : Record :=
  [("n", .int .u8 (IntKind.u8.ofBits 2)), ("data", .bytes [7, 8]),
    ("more", .int .u8 (IntKind.u8.ofBits 5))]

theorem decode_encode_eq_iff_fits_trailing : ∃ d r, compile trailingSource {} = .ok d ∧
    d.plan.encode trailingValues = .ok [2, 7, 8, 5] ∧ d.plan.decode [2, 7, 8, 5] = .ok r ∧
      r.fields = trailingValues ∧ d.plan.Fits trailingValues [2, 7, 8, 5] := by
  have hrun : (compile trailingSource {}).toOption.any (fun d =>
      decide ((d.plan.encode trailingValues).toOption = some [2, 7, 8, 5]) &&
        (decide ((∀ f ∈ d.plan.fields, f.type.isFloat = false) ∧ d.plan.Typed trailingValues ∧
            Plan.record d.plan.fields (d.plan.slotsFor trailingValues) = trailingValues) &&
          (d.plan.decode [2, 7, 8, 5]).toOption.any fun r =>
            decide (r.fields = trailingValues))) = true := by
    decide +kernel
  obtain ⟨d, hcompile, hrun⟩ := exists_eq_ok_of_any hrun
  obtain ⟨hwritten, hrun⟩ := Bool.and_eq_true_iff.mp hrun
  obtain ⟨hkinds, hrun⟩ := Bool.and_eq_true_iff.mp hrun
  obtain ⟨hfloat, htyped, hrecord⟩ := of_decide_eq_true hkinds
  obtain ⟨r, hdecode, hrun⟩ := exists_eq_ok_of_any hrun
  have hfields : r.fields = trailingValues := of_decide_eq_true hrun
  have hencode := eq_ok_of_toOption (of_decide_eq_true hwritten)
  have hfits := (decode_encode_eq_iff_fits hcompile hfloat htyped hencode hdecode).mp
    (hfields.trans hrecord.symm)
  exact ⟨d, r, hcompile, hencode, hdecode, hfields, hfits⟩

/-- More bytes than are counted, a missing optional field in front of another, and one that is there
with no bytes: each is written, and read as something else. -/
theorem misread_records :
    Misread trailingSource
        [("n", .int .u8 (IntKind.u8.ofBits 1)), ("data", .bytes [7, 8]), ("rest", .bytes [9])] ∧
      Misread trailingSource
        [("n", .int .u8 (IntKind.u8.ofBits 0)), ("data", .bytes []), ("rest", .bytes [9])] ∧
      Misread trailingSource
        [("n", .int .u8 (IntKind.u8.ofBits 0)), ("data", .bytes []),
          ("more", .int .u8 (IntKind.u8.ofBits 5)), ("rest", .bytes [])] := by
  refine ⟨misread_of_run ?_, misread_of_run ?_, misread_of_run ?_⟩ <;> decide +kernel

end WireSpec
