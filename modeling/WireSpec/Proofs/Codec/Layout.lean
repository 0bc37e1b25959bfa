import WireSpec.Proofs.Codec.Occupation
/-!
# The layout of a decoded message

Decoding is described here by offsets alone: the fields of a message lie between consecutive
offsets from zero to the number of bytes consumed, and each of them holds of its bytes what its plan
says, with every formula evaluated over the whole input and all slots.
-/

namespace WireSpec

namespace Plan

/-! ### Records and slots -/

theorem record_cons (f : FieldPlan) (rest : List FieldPlan) (slot : Option Value)
    (slots : List (Option Value)) :
    record (f :: rest) (slot :: slots) =
      (slot.map (f.name, ·)).toList ++ record rest slots := by
  cases slot <;> rfl

theorem lookup_record_eq_none {fields : List FieldPlan} {slots : List (Option Value)}
    {name : String} (h : name ∉ fields.map (·.name)) :
    (record fields slots).lookup name = none := by
  rw [List.lookup_eq_none_iff]
  rintro ⟨other, v⟩ hmem
  obtain ⟨⟨f, slot⟩, hzip, hslot⟩ := List.mem_filterMap.mp hmem
  obtain ⟨w, _, hpair⟩ := Option.map_eq_some_iff.mp hslot
  obtain ⟨rfl, _⟩ := Prod.mk.inj hpair
  have hf : f.name ∈ fields.map (·.name) := List.mem_map_of_mem (List.of_mem_zip hzip).1
  have hne : name ≠ f.name := fun heq => h (heq ▸ hf)
  simpa using hne

/-- A field's slot is what the record has under its name. -/
theorem map_lookup_record {fields : List FieldPlan} {slots : List (Option Value)}
    (hnames : (fields.map (·.name)).Nodup) (hlength : slots.length = fields.length) :
    fields.map (fun f => (record fields slots).lookup f.name) = slots := by
  induction fields generalizing slots with
  | nil => simpa [eq_comm] using hlength
  | cons f rest ih =>
      obtain ⟨slot, slots, rfl⟩ := List.exists_cons_of_length_eq_add_one hlength
      rw [List.map_cons, List.nodup_cons] at hnames
      obtain ⟨hfresh, hnames⟩ := hnames
      have hrest : rest.map (fun g => (record (f :: rest) (slot :: slots)).lookup g.name) =
          rest.map fun g => (record rest slots).lookup g.name := by
        refine List.map_congr_left fun g hg => ?_
        have hne : g.name ≠ f.name := fun heq => hfresh (heq ▸ List.mem_map_of_mem hg)
        rw [record_cons]
        cases slot <;> simp [List.lookup_cons, beq_eq_false_iff_ne.mpr hne]
      have hfirst : (record (f :: rest) (slot :: slots)).lookup f.name = slot := by
        rw [record_cons]
        cases slot with
        | none => simpa using lookup_record_eq_none hfresh
        | some v => simp
      rw [List.map_cons, hfirst, hrest, ih hnames (by simpa using hlength)]

/-! ### Offsets -/

/-- The slots of a message with the offsets between its fields. -/
structure Layout (p : Plan) (input : Bytes) (slots : List (Option Value))
    (offsets : Nat → Nat) (consumed : Nat) : Prop where
  length_slots : slots.length = p.fields.length
  begins : offsets 0 = 0
  ends : offsets p.fields.length = consumed
  fits : consumed ≤ input.length
  mono : ∀ i < p.fields.length, offsets i ≤ offsets (i + 1)
  field : ∀ i (hi : i < p.fields.length) (hs : i < slots.length),
    p.fields[i].Occupies input slots (offsets i) (offsets (i + 1)) slots[i]

end Plan

namespace FieldPlan.Occupies

variable {f : FieldPlan} {input : Bytes} {slots : List (Option Value)} {start stop : Nat}
  {slot : Option Value}

theorem start_le_stop (h : f.Occupies input slots start stop slot) : start ≤ stop := by
  cases slot with
  | none => exact Nat.le_of_eq (FieldPlan.occupies_none.mp h).2.symm
  | some v => exact (FieldPlan.occupies_some.mp h).2.1

theorem stop_le_length (h : f.Occupies input slots start stop slot)
    (hstart : start ≤ input.length) : stop ≤ input.length := by
  cases slot with
  | none => exact (FieldPlan.occupies_none.mp h).2 ▸ hstart
  | some v => exact (FieldPlan.occupies_some.mp h).2.2.1

theorem isSome_of_lt (h : f.Occupies input slots start stop slot) (hlt : start < stop) :
    slot.isSome = true := by
  cases slot with
  | none =>
      have hstop := (FieldPlan.occupies_none.mp h).2
      omega
  | some v => rfl

end FieldPlan.Occupies

namespace Plan

/-- Fields that lie one behind the other have offsets between them, and the other way round. -/
theorem occupy_iff_offsets {input : Bytes} {all slots : List (Option Value)}
    {fields : List FieldPlan} {start stop : Nat} :
    Occupy input all fields start slots stop ↔
      ∃ offsets : Nat → Nat, offsets 0 = start ∧ offsets fields.length = stop ∧
        slots.length = fields.length ∧
        ∀ i (hi : i < fields.length) (hs : i < slots.length),
          fields[i].Occupies input all (offsets i) (offsets (i + 1)) slots[i] := by
  constructor
  · intro h
    induction h with
    | @nil offset => exact ⟨fun _ => offset, rfl, rfl, rfl, by simp⟩
    | @cons f rest slot slots start next stop first later ih =>
        obtain ⟨offsets, hbegin, hend, hlength, hfield⟩ := ih
        refine ⟨fun i => i.casesOn start offsets, rfl, hend, by simp [hlength], ?_⟩
        intro i hi hs
        cases i with
        | zero =>
            change f.Occupies input all start (offsets 0) slot
            rw [hbegin]
            exact first
        | succ i => exact hfield i (Nat.lt_of_succ_lt_succ hi) (Nat.lt_of_succ_lt_succ hs)
  · rintro ⟨offsets, rfl, rfl, hlength, hfield⟩
    induction fields generalizing slots offsets with
    | nil =>
        obtain rfl := List.eq_nil_of_length_eq_zero hlength
        exact .nil
    | cons f rest ih =>
        obtain ⟨slot, slots, rfl⟩ := List.exists_cons_of_length_eq_add_one hlength
        refine .cons (hfield 0 (Nat.zero_lt_succ _) (Nat.zero_lt_succ _)) ?_
        refine ih (fun i => offsets (i + 1)) (by simpa using hlength) ?_
        intro i hi hs
        exact hfield (i + 1) (Nat.succ_lt_succ hi) (Nat.succ_lt_succ hs)

theorem Occupy.stop_le_length {input : Bytes} {all slots : List (Option Value)}
    {fields : List FieldPlan} {start stop : Nat}
    (h : Occupy input all fields start slots stop) (hstart : start ≤ input.length) :
    stop ≤ input.length := by
  induction h with
  | nil => exact hstart
  | cons first _ ih => exact ih (first.stop_le_length hstart)

theorem occupy_iff_layout {p : Plan} {input : Bytes} {slots : List (Option Value)}
    {consumed : Nat} :
    Occupy input slots p.fields 0 slots consumed ↔
      ∃ offsets, p.Layout input slots offsets consumed := by
  constructor
  · intro h
    have hfits := h.stop_le_length (Nat.zero_le _)
    obtain ⟨offsets, hbegin, hend, hlength, hfield⟩ := occupy_iff_offsets.mp h
    exact ⟨offsets, hlength, hbegin, hend, hfits,
      fun i hi => (hfield i hi (hlength.symm ▸ hi)).start_le_stop, hfield⟩
  · rintro ⟨offsets, h⟩
    exact occupy_iff_offsets.mpr ⟨offsets, h.begins, h.ends, h.length_slots, h.field⟩

namespace Layout

variable {p : Plan} {input : Bytes} {slots : List (Option Value)} {offsets : Nat → Nat}
  {consumed : Nat}

theorem offsets_le (h : p.Layout input slots offsets consumed) {i j : Nat} (hij : i ≤ j)
    (hj : j ≤ p.fields.length) : offsets i ≤ offsets j := by
  induction hij with
  | refl => exact Nat.le_refl _
  | @step j _ ih => exact Nat.le_trans (ih (Nat.le_of_succ_le hj)) (h.mono j hj)

/-- Some step of the offsets leads over every byte that is consumed. -/
theorem exists_step (h : p.Layout input slots offsets consumed) {k : Nat} (hk : k < consumed) :
    ∃ i < p.fields.length, offsets i ≤ k ∧ k < offsets (i + 1) := by
  have hreach : ∀ n ≤ p.fields.length, k < offsets n →
      ∃ i < n, offsets i ≤ k ∧ k < offsets (i + 1) := by
    intro n hn hlt
    induction n with
    | zero => simp [h.begins] at hlt
    | succ n ih =>
        by_cases hbefore : k < offsets n
        · obtain ⟨i, hi, hstep⟩ := ih (Nat.le_of_succ_le hn) hbefore
          exact ⟨i, Nat.lt_succ_of_lt hi, hstep⟩
        · exact ⟨n, Nat.lt_succ_self n, Nat.le_of_not_lt hbefore, hlt⟩
  exact hreach _ (Nat.le_refl _) (h.ends.symm ▸ hk)

/-- Every byte that is consumed lies in exactly one field, and that field is present. -/
theorem existsUnique_field (h : p.Layout input slots offsets consumed) {k : Nat}
    (hk : k < consumed) :
    ∃! i, i < p.fields.length ∧ (slots[i]?.join).isSome = true ∧
      offsets i ≤ k ∧ k < offsets (i + 1) := by
  obtain ⟨i, hi, hlow, hhigh⟩ := h.exists_step hk
  have hs : i < slots.length := h.length_slots.symm ▸ hi
  have hpresent := (h.field i hi hs).isSome_of_lt (Nat.lt_of_le_of_lt hlow hhigh)
  refine ⟨i, ⟨hi, by simpa [List.getElem?_eq_getElem hs] using hpresent, hlow, hhigh⟩, ?_⟩
  rintro j ⟨hj, _, hlow', hhigh'⟩
  rcases Nat.lt_trichotomy j i with hji | rfl | hij
  · have hle : offsets (j + 1) ≤ offsets i := h.offsets_le hji (Nat.le_of_lt hi)
    omega
  · rfl
  · have hle : offsets (i + 1) ≤ offsets j := h.offsets_le hij (Nat.le_of_lt hj)
    omega

end Layout

end Plan

/-- A compiled plan decodes an input to the given slots and consumes so many bytes exactly if there
are offsets between which the fields lie, all formulas evaluated over the whole input and all slots;
and then every byte consumed lies in exactly one field that is present. -/
theorem decode_iff_layout {source : String} {o : Options} {d : Decoder}
    (h : compile source o = .ok d) (input : Bytes) (slots : List (Option Value))
    (consumed : Nat) :
    ((slots.length = d.plan.fields.length ∧ ∃ r, d.plan.decode input = .ok r ∧
        r.fields = Plan.record d.plan.fields slots ∧ r.consumed = consumed) ↔
      ∃ offsets, d.plan.Layout input slots offsets consumed) ∧
    ∀ offsets, d.plan.Layout input slots offsets consumed → ∀ k < consumed,
      ∃! i, i < d.plan.fields.length ∧ (slots[i]?.join).isSome = true ∧
        offsets i ≤ k ∧ k < offsets (i + 1) := by
  have hplan := wellFormed_of_compile h
  refine ⟨?_, fun offsets hlayout k hk => hlayout.existsUnique_field hk⟩
  rw [← Plan.occupy_iff_layout]
  constructor
  · rintro ⟨hlength, r, hdecode, hfields, rfl⟩
    obtain ⟨slots', hslots', hfields', _⟩ := (Plan.decode_eq_ok hplan).mp hdecode
    -- The names are distinct, so the record determines the slots.
    have heq : slots' = slots := by
      rw [← Plan.map_lookup_record hplan.names_nodup hslots'.length_eq, ← hfields', hfields,
        Plan.map_lookup_record hplan.names_nodup hlength]
    exact heq ▸ hslots'
  · intro hslots
    refine ⟨hslots.length_eq, ?_⟩
    have hdecode := (Plan.decode_eq_ok hplan (d := ⟨Plan.record d.plan.fields slots,
      (d.plan.annotate ⟨some input, slots⟩).1, (d.plan.annotate ⟨some input, slots⟩).2,
      consumed⟩)).mpr ⟨slots, hslots, rfl, rfl⟩
    exact ⟨_, hdecode, rfl, rfl⟩

/-- A count, as many bytes, and an optional field for which nothing is left. -/
def countedSource : String :=
  "protocol P \x7b message M \x7b uint8 n range(1, 9); bytes data length(n) " ++
    "validate(data.length == n && this[0] == n); optional uint8 more; \x7d \x7d"

def countedSlots : List (Option Value) :=
  [some (.int .u8 ⟨2, by decide⟩), some (.bytes [7, 8]), none]

theorem decode_iff_layout_counted : ∃ d, compile countedSource {} = .ok d ∧
    ∃ offsets, d.plan.Layout [2, 7, 8] countedSlots offsets 3 := by
  have hrun : (compile countedSource {}).toOption.any (fun d =>
      decide (countedSlots.length = d.plan.fields.length) &&
        (d.plan.decode [2, 7, 8]).toOption.any fun r =>
          decide (r.fields = Plan.record d.plan.fields countedSlots ∧ r.consumed = 3)) = true := by
    decide +kernel
  obtain ⟨d, hcompile, hrun⟩ := exists_eq_ok_of_any hrun
  obtain ⟨hlength, hrun⟩ := Bool.and_eq_true_iff.mp hrun
  obtain ⟨r, hdecode, hrun⟩ := exists_eq_ok_of_any hrun
  obtain ⟨hfields, hconsumed⟩ := of_decide_eq_true hrun
  exact ⟨d, hcompile, (decode_iff_layout hcompile [2, 7, 8] countedSlots 3).1.mp
    ⟨of_decide_eq_true hlength, r, hdecode, hfields, hconsumed⟩⟩

end WireSpec
