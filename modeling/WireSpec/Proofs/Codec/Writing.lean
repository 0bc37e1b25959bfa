import WireSpec.Proofs.Codec.FieldBytes
import WireSpec.Proofs.Codec.Layout
/-!
# Writing a record

A record is written field by field, in the order of the plan.  `Plan.Writes` says of the fields and
their slots what the bytes are; the slot of padding is filled whether or not the record has a value
for it.  A record that was read is written in as many bytes as were read, but for padding of
computed size.
-/

namespace WireSpec

namespace FieldPlan

/-- The bytes that a slot is written as. -/
def written (f : FieldPlan) : Option Value → Bytes
  | none => []
  | some v => (f.encode v).toOption.getD []

/-- A slot is written as these bytes.  Only an optional field can be left out. -/
def Writes (f : FieldPlan) (slot : Option Value) (raw : Bytes) : Prop :=
  match slot with
  | some v => f.encode v = .ok raw
  | none => f.optional = true ∧ raw = []

/-- The bytes of a field can be made of its value, but for those of truth values and of padding. -/
structure Restores (f : FieldPlan) : Prop where
  sized : f.Sized
  not_float : f.type.isFloat = false

variable {f : FieldPlan} {input : Bytes} {slots : List (Option Value)} {start stop : Nat}
  {slot : Option Value} {v : Value} {raw : Bytes}

theorem written_of_encode (h : f.encode v = .ok raw) : f.written (some v) = raw := by
  rw [written, h]
  rfl

theorem Writes.written_eq (h : f.Writes slot raw) : f.written slot = raw := by
  cases slot with
  | none => exact h.2.symm
  | some v => exact written_of_encode h

namespace Occupies

theorem length_raw (h : f.Occupies input slots start stop slot) :
    ((input.drop start).take (stop - start)).length = stop - start := by
  rw [List.length_take, List.length_drop]
  cases slot with
  | none =>
      obtain ⟨_, rfl⟩ := occupies_none.mp h
      omega
  | some v =>
      obtain ⟨_, _, hstop, _⟩ := occupies_some.mp h
      omega

theorem length_raw_of_fixed (h : f.Occupies input slots start stop (some v)) {n : Nat}
    (hwidth : f.width = .fixed n) : ((input.drop start).take (stop - start)).length = n := by
  obtain ⟨_, _, _, htakes, _⟩ := occupies_some.mp h
  simp only [Takes, hwidth] at htakes
  rw [h.length_raw, htakes]

theorem encode_eq (hf : f.Restores) (h : f.Occupies input slots start stop (some v)) :
    f.encode v = .ok (f.canonical ((input.drop start).take (stop - start))) := by
  obtain ⟨_, _, _, _, hdecode, _⟩ := occupies_some.mp h
  exact encode_of_decode hf.sized hf.not_float (fun n => h.length_raw_of_fixed) hdecode

theorem writes (hf : f.Restores) (h : f.Occupies input slots start stop slot) :
    f.Writes slot (f.written slot) := by
  cases slot with
  | none =>
      obtain ⟨⟨hoptional, _⟩, _⟩ := occupies_none.mp h
      exact ⟨hoptional, rfl⟩
  | some v =>
      have hencode := h.encode_eq hf
      rwa [written_of_encode hencode]

theorem stop_eq_of_not_isComputedPadding (hf : f.Restores) (hpadding : ¬f.IsComputedPadding)
    (h : f.Occupies input slots start stop slot) : stop = start + (f.written slot).length := by
  cases slot with
  | none => exact (occupies_none.mp h).2
  | some v =>
      have hstart := h.start_le_stop
      rw [written_of_encode (h.encode_eq hf),
        length_canonical hf.sized (fun n => h.length_raw_of_fixed) hpadding, h.length_raw]
      omega

/-- No field is written as more bytes than were read for it. -/
theorem add_length_written_le (hf : f.Restores) (h : f.Occupies input slots start stop slot) :
    start + (f.written slot).length ≤ stop := by
  by_cases hpadding : f.IsComputedPadding
  · cases slot with
    | none => exact Nat.le_of_eq (occupies_none.mp h).2.symm
    | some v =>
        rw [written_of_encode (h.encode_eq hf), canonical_of_isComputedPadding hpadding]
        exact h.start_le_stop
  · exact Nat.le_of_eq (h.stop_eq_of_not_isComputedPadding hf hpadding).symm

end Occupies

end FieldPlan

namespace Plan

/-- The bytes that the slots of fields are written as. -/
def written (fields : List FieldPlan) (slots : List (Option Value)) : Bytes :=
  (fields.zip slots).flatMap fun (f, slot) => f.written slot

/-- Fields and slots that are written as these bytes, one behind the other. -/
inductive Writes : List FieldPlan → List (Option Value) → Bytes → Prop where
  | nil : Writes [] [] []
  | cons {f : FieldPlan} {rest : List FieldPlan} {slot : Option Value}
      {slots : List (Option Value)} {raw out : Bytes} (first : f.Writes slot raw)
      (later : Writes rest slots out) : Writes (f :: rest) (slot :: slots) (raw ++ out)

/-- The slot that a field has in a record which is written: padding that must be there holds `null`
also where the record has nothing for it. -/
def slotFor (values : Record) (f : FieldPlan) : Option Value :=
  match values.lookup f.name with
  | some v => some v
  | none => if f.optional = false ∧ f.type = .void then some .null else none

def slotsFor (p : Plan) (values : Record) : List (Option Value) := p.fields.map (slotFor values)

variable {input : Bytes} {all slots : List (Option Value)} {fields : List FieldPlan}
  {start stop : Nat} {values : Record} {f : FieldPlan} {slot : Option Value} {v : Value}
  {raw out : Bytes}

theorem written_cons (f : FieldPlan) (rest : List FieldPlan) (slot : Option Value)
    (slots : List (Option Value)) :
    written (f :: rest) (slot :: slots) = f.written slot ++ written rest slots := rfl

theorem slotFor_of_lookup (h : values.lookup f.name = some v) : slotFor values f = some v := by
  rw [slotFor, h]

theorem slotFor_of_optional (h : f.optional = true) :
    slotFor values f = values.lookup f.name := by
  unfold slotFor
  split
  · rename_i v hv
    exact hv.symm
  · rename_i hnone
    simp [h, hnone]

theorem encodeField_eq_ok : encodeField values f = .ok raw ↔ f.Writes (slotFor values f) raw := by
  unfold encodeField slotFor
  cases values.lookup f.name with
  | some v => rfl
  | none =>
      cases hoptional : f.optional with
      | true => simp [FieldPlan.Writes, hoptional, eq_comm]
      | false =>
          by_cases htype : f.type = .void
          · simp [FieldPlan.Writes, htype]
          · simp [FieldPlan.Writes, htype, hoptional]

theorem writes_slotFor_iff : Writes fields (fields.map (slotFor values)) out ↔
    ∃ raws, fields.mapM (encodeField values) = .ok raws ∧ raws.flatten = out := by
  induction fields generalizing out with
  | nil =>
      constructor
      · rintro ⟨⟩
        exact ⟨[], rfl, rfl⟩
      · rintro ⟨raws, hraws, rfl⟩
        obtain rfl := Except.ok.inj hraws
        exact .nil
  | cons f rest ih =>
      rw [List.mapM_cons]
      simp only [except_bind_eq_ok, encodeField_eq_ok, pure, Except.pure, Except.ok.injEq]
      constructor
      · rintro (_ | ⟨hfirst, hlater⟩)
        obtain ⟨raws, hraws, rfl⟩ := ih.mp hlater
        exact ⟨_, ⟨_, hfirst, raws, hraws, rfl⟩, rfl⟩
      · rintro ⟨_, ⟨raw, hfirst, raws, hraws, rfl⟩, rfl⟩
        exact .cons hfirst (ih.mpr ⟨raws, hraws, rfl⟩)

theorem encode_eq_ok {p : Plan} :
    p.encode values = .ok out ↔ Writes p.fields (p.slotsFor values) out := by
  rw [slotsFor, writes_slotFor_iff, encode]
  simp only [except_bind_eq_ok, pure, Except.pure, Except.ok.injEq]

theorem Writes.written_eq (h : Writes fields slots out) : written fields slots = out := by
  induction h with
  | nil => rfl
  | cons first _ ih => rw [written_cons, first.written_eq, ih]

theorem Occupy.add_length_written_le (hfields : ∀ f ∈ fields, f.Restores)
    (h : Occupy input all fields start slots stop) :
    start + (written fields slots).length ≤ stop := by
  induction h with
  | nil => exact Nat.le_refl _
  | cons first _ ih =>
      obtain ⟨hf, hrest⟩ := List.forall_mem_cons.mp hfields
      have hnext := first.add_length_written_le hf
      have hstop := ih hrest
      rw [written_cons, List.length_append]
      omega

theorem Occupy.writes (hfields : ∀ f ∈ fields, f.Restores)
    (h : Occupy input all fields start slots stop) :
    Writes fields slots (written fields slots) := by
  induction h with
  | nil => exact .nil
  | cons first _ ih =>
      obtain ⟨hf, hrest⟩ := List.forall_mem_cons.mp hfields
      exact .cons (first.writes hf) (ih hrest)

/-- The slots of a message that was read are those of the record in which it results. -/
theorem Occupy.map_slotFor (hslots : fields.map (fun f => values.lookup f.name) = slots)
    (h : Occupy input all fields start slots stop) : fields.map (slotFor values) = slots := by
  induction h with
  | nil => rfl
  | @cons f rest slot slots start next stop first later ih =>
      obtain ⟨hslot, hslots⟩ := List.cons.inj hslots
      rw [List.map_cons, ih hslots]
      cases slot with
      | none =>
          obtain ⟨⟨hoptional, _⟩, _⟩ := FieldPlan.occupies_none.mp first
          exact congrArg (· :: slots) ((slotFor_of_optional hoptional).trans hslot)
      | some v => exact congrArg (· :: slots) (slotFor_of_lookup hslot)

theorem encode_of_restores {p : Plan} (hfields : ∀ f ∈ p.fields, f.Restores)
    (hslots : p.fields.map (fun f => values.lookup f.name) = slots)
    (h : Occupy input all p.fields start slots stop) :
    p.encode values = .ok (written p.fields slots) := by
  rw [encode_eq_ok, slotsFor, h.map_slotFor hslots]
  exact h.writes hfields

end Plan

end WireSpec
