import WireSpec.Proofs.Codec.Shortage
/-!
# Messages of one size

Where every field has a fixed width and must be there, the size of a message is known beforehand.  Both
directions keep to it: no message is decoded from fewer bytes or takes more of them, and whatever is
encoded has as many.
-/

namespace WireSpec

namespace FieldPlan

variable {f : FieldPlan} {width : Nat}

theorem fixedWidth_eq_some : f.fixedWidth = some width ↔ f.width = .fixed width := by
  unfold fixedWidth
  cases f.width <;> simp

section

variable {input : Bytes} {slots : List (Option Value)} {start : Nat}

theorem sizeAt_of_fixed (hwidth : f.width = .fixed width) :
    f.sizeAt input start slots = .ok width := by
  rw [sizeAt, hwidth]

theorem next_eq_of_fixed {slot : Option Value} {next : Nat} (hrequired : f.optional = false)
    (hwidth : f.width = .fixed width) (h : f.read input start slots = .ok (slot, next)) :
    next = start + width := by
  obtain ⟨size, hsize, hnext, _⟩ := exists_size_of_read hrequired h
  rw [sizeAt_of_fixed hwidth] at hsize
  obtain rfl := Except.ok.inj hsize
  exact hnext

theorem neverShort_of_fixed (hwidth : f.width = .fixed width)
    (hroom : start + width ≤ input.length) : NeverShort (f.read input start slots) := by
  intro e h hshort
  obtain ⟨size, hsize, hlong⟩ := exists_size_of_short h hshort
  rw [sizeAt_of_fixed hwidth] at hsize
  obtain rfl := Except.ok.inj hsize
  omega

end

theorem Writes.length_eq {slot : Option Value} {raw : Bytes} (hrequired : f.optional = false)
    (hwidth : f.width = .fixed width) (h : f.Writes slot raw) : raw.length = width := by
  cases slot with
  | none =>
      obtain ⟨hoptional, _⟩ := h
      rw [hrequired] at hoptional
      cases hoptional
  | some v => exact (encode_eq_ok.mp h).2 width hwidth

end FieldPlan

namespace Plan

/-- Fields that must all be there, with fixed widths that add up to a size. -/
inductive FixedWidths : List FieldPlan → Nat → Prop where
  | nil : FixedWidths [] 0
  | cons {f : FieldPlan} {rest : List FieldPlan} {width size : Nat}
      (required : f.optional = false) (fixed : f.width = .fixed width)
      (later : FixedWidths rest size) : FixedWidths (f :: rest) (width + size)

theorem fixedWidths_of_mapM {fields : List FieldPlan} {widths : List Nat}
    (h : (fields.mapM fun (f : FieldPlan) => if f.optional then none else f.fixedWidth) =
      some widths) : FixedWidths fields (widths.foldr (· + ·) 0) := by
  induction fields generalizing widths with
  | nil =>
      obtain rfl := Option.some.inj h
      exact .nil
  | cons f rest ih =>
      rw [List.mapM_cons] at h
      obtain ⟨width, hwidth, h⟩ := Option.bind_eq_some_iff.mp h
      obtain ⟨later, hlater, h⟩ := Option.bind_eq_some_iff.mp h
      obtain rfl := Option.some.inj h
      split at hwidth
      · cases hwidth
      · rename_i hrequired
        exact .cons (Bool.eq_false_of_not_eq_true hrequired)
          (FieldPlan.fixedWidth_eq_some.mp hwidth) (ih hlater)

theorem fixedWidths_of_fixedSize {p : Plan} {n : Nat} (h : p.fixedSize = some n) :
    FixedWidths p.fields n := by
  obtain ⟨widths, hwidths, rfl⟩ := Option.map_eq_some_iff.mp h
  exact fixedWidths_of_mapM hwidths

namespace FixedWidths

variable {fields : List FieldPlan} {n start stop : Nat} {input : Bytes}
  {before slots : List (Option Value)} {out : Bytes}

theorem stop_eq (hfields : FixedWidths fields n)
    (h : readFields input fields start before = .ok (slots, stop)) : stop = start + n := by
  induction hfields generalizing start before with
  | nil =>
      cases h
      rfl
  | cons required fixed _ ih =>
      obtain ⟨⟨slot, next⟩, hread, hlater⟩ := except_bind_eq_ok.mp h
      have hnext := FieldPlan.next_eq_of_fixed required fixed hread
      have hstop := ih hlater
      omega

theorem neverShort_readFields (hfields : FixedWidths fields n)
    (hroom : start + n ≤ input.length) : NeverShort (readFields input fields start before) := by
  induction hfields generalizing start before with
  | nil => exact neverShort_ok _
  | @cons f rest width size required fixed _ ih =>
      have hfirst : NeverShort (f.read input start before) :=
        FieldPlan.neverShort_of_fixed fixed (by omega)
      unfold readFields
      cases hread : f.read input start before with
      | error e =>
          apply neverShort_error.mpr
          exact hfirst e hread
      | ok result =>
          obtain ⟨slot, next⟩ := result
          have hnext := FieldPlan.next_eq_of_fixed required fixed hread
          exact ih (by omega)

theorem length_writes (hfields : FixedWidths fields n) (h : Writes fields slots out) :
    out.length = n := by
  induction hfields generalizing slots out with
  | nil =>
      cases h
      rfl
  | cons required fixed _ ih =>
      cases h with
      | cons first later =>
          rw [List.length_append, first.length_eq required fixed, ih later]

end FixedWidths

end Plan

/-- The size that a plan reports is that of every message: fewer bytes are not decoded, of as many or
more none are missing, what is decoded has taken so many, and what is encoded, from whatever
values, has so many. -/
theorem fixedSize_exact {p : Plan} {n : Nat} (h : p.fixedSize = some n) :
    (∀ input, input.length < n → ∃ e, p.decode input = .error e) ∧
    (∀ input, n ≤ input.length → ∀ name, p.decode input ≠ .error (.insufficientData name)) ∧
    (∀ input r, p.decode input = .ok r → r.consumed = n) ∧
    ∀ values out, p.encode values = .ok out → out.length = n := by
  have hfields := Plan.fixedWidths_of_fixedSize h
  have hconsumed : ∀ input r, p.decode input = .ok r → r.consumed = n := by
    intro input r hdecode
    obtain ⟨slots, hread, _⟩ := Plan.decode_eq_ok_iff_readFields.mp hdecode
    rw [hfields.stop_eq hread, Nat.zero_add]
  refine ⟨?_, ?_, hconsumed, ?_⟩
  · intro input hlength
    cases hdecode : p.decode input with
    | error e => exact ⟨e, rfl⟩
    | ok r =>
        have hfits := Plan.consumed_le_length hdecode
        rw [hconsumed input r hdecode] at hfits
        omega
  · intro input hlength name hdecode
    have hshort : NeverShort (p.decode input) := by
      apply Plan.neverShort_decode_iff.mpr
      apply hfields.neverShort_readFields
      rwa [Nat.zero_add]
    exact hshort _ hdecode trivial
  · intro values out hencode
    exact hfields.length_writes (Plan.encode_eq_ok.mp hencode)

/-- A number, padding, a text of two code units, and a truth value. -/
def titledSource : String :=
  "protocol P \x7b message M \x7b uint16 n; void gap length(1); " ++
    "string title length(2 * 2) encoding(utf16le); bool last; \x7d \x7d"

/-- Values of other types than the fields have, and none for the padding. -/
def titledValues : Record :=
  [("n", .char 'n'), ("title", .string "hi"), ("last", .int .u8 ⟨7, by decide⟩)]

theorem fixedSize_exact_titled : ∃ d, compile titledSource {} = .ok d ∧
    d.plan.fixedSize = some 8 ∧
      (∃ e, d.plan.decode [0, 1, 0, 72, 0, 105, 0] = .error e) ∧
      (∃ r, d.plan.decode [0, 1, 0, 72, 0, 105, 0, 1, 9] = .ok r ∧ r.consumed = 8) ∧
      ∃ out, d.plan.encode titledValues = .ok out ∧ out.length = 8 := by
  have hrun : (compile titledSource {}).toOption.any (fun d =>
      decide (d.plan.fixedSize = some 8) &&
        ((d.plan.decode [0, 1, 0, 72, 0, 105, 0, 1, 9]).toOption.any (fun _ => true) &&
          (d.plan.encode titledValues).toOption.any fun _ => true)) = true := by
    decide +kernel
  obtain ⟨d, hcompile, hrun⟩ := exists_eq_ok_of_any hrun
  obtain ⟨hsize, hrun⟩ := Bool.and_eq_true_iff.mp hrun
  obtain ⟨hread, hwrite⟩ := Bool.and_eq_true_iff.mp hrun
  obtain ⟨r, hdecode, _⟩ := exists_eq_ok_of_any hread
  obtain ⟨out, hencode, _⟩ := exists_eq_ok_of_any hwrite
  obtain ⟨hfewer, _, hconsumed, hlength⟩ := fixedSize_exact (of_decide_eq_true hsize)
  exact ⟨d, hcompile, of_decide_eq_true hsize, hfewer _ (by decide),
    ⟨r, hdecode, hconsumed _ r hdecode⟩, out, hencode, hlength _ out hencode⟩

end WireSpec
