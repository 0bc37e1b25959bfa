import WireSpec.Proofs.Checksum.Register
import WireSpec.Proofs.Codec.Layout
import WireSpec.Proofs.Plan.Widths
/-!
# Messages that end in their check

The last field of a message can hold the check of all bytes before it, which its validation
computes again from the whole input.  An input that such a message takes up is one that it takes up
without the validation, if its own check is zero; so the field adds exactly what the check is good
for, whatever fields stand in front of it.
-/

namespace WireSpec

/-! ### The condition -/

/-- `this[0..-3]`, all bytes but the last two. -/
def Formula.checkedBytes : Formula :=
  .slice .input (.const (.int ⟨0, by decide⟩)) (.const (.int ⟨-3, by decide⟩))

/-- `crc16(this[0..-3]) == field`, the field being at this place. -/
def Formula.crcCheck (place : Nat) : Formula :=
  .binary .equal (.call "crc16" (fun data => (Checksum.crc16 data).toUInt64) checkedBytes)
    (.field place)

/-- The expression `crc16(this[0..-3]) == field`, wherever its tokens stand. -/
def Expr.isCrcCheck (field : String) : Expr → Bool
  | .binary .equal
      (.call _ "crc16" [.slice (.name _ "this") (.literal _ (.integer 0))
        (.unary _ .negate (.literal _ (.integer 3)))])
      (.name _ word) => word == field
  | _ => false

@[simp] theorem lastPlace?_concat (names : List String) (name : String) :
    lastPlace? (names ++ [name]) name = some names.length := by
  simp [lastPlace?, List.zipIdx_append]

/-- The expression is bound to the condition, the standard functions given. -/
theorem Context.bind_of_isCrcCheck {c : Context} (hc : c.builtins = .standard)
    {before : List String} {field : String} (hthis : field ≠ "this") {e : Expr}
    (he : e.isCrcCheck field = true) :
    c.bind (.fields (before ++ [field])) e = pure (.crcCheck before.length) := by
  unfold Expr.isCrcCheck at he
  split at he
  · obtain rfl := eq_of_beq he
    simp only [bind, bindWith, bindName, lookup, hc, hthis, lastPlace?_concat, if_true, if_false]
    rfl
  · cases he

namespace FieldSite

variable {c : Context} {s : FieldSite} {condition : Formula}

theorem validate_of_foldl_set {f : FieldPlan} {settings : List Setting}
    (h : (settings.foldl FieldPlan.set f).validate = some condition) :
    f.validate = some condition ∨ .validate condition ∈ settings := by
  induction settings generalizing f with
  | nil => exact .inl h
  | cons x rest ih =>
      rcases ih h with hset | hrest
      · cases x with
        | validate other =>
            cases hset
            exact .inr List.mem_cons_self
        | range | order | width | encoding | format | label | color => exact .inl hset
      · exact .inr (List.mem_cons_of_mem x hrest)

theorem isWidth_of_defaultWidth {x : Setting} (h : x ∈ s.defaultWidth.value) :
    x.isWidth = true := by
  unfold defaultWidth at h
  split at h
  · rw [List.mem_singleton.mp h]
    rfl
  · split at h <;> cases h
  · split at h <;> cases h
  · cases h

/-- The validation of a field is what an argument of one of its modifiers is bound to. -/
theorem exists_bind_of_validate (h : (s.plan c).value.validate = some condition) :
    ∃ e, s.decl.Modified "validate" [e] ∧ condition = (c.bind s.ownScope e).value := by
  rw [value_plan] at h
  rcases validate_of_foldl_set h with hbase | hsetting
  · cases hbase
  · rcases List.mem_append.mp hsetting with hgiven | hdefault
    · obtain ⟨m, hm, hx⟩ := exists_setting [] hgiven
      have hname : "validate" = m.name := modifier_of_setting hx
      simp only [setting, ← hname, validate, Checked.value_bind] at hx
      split at hx
      · rename_i e he
        cases hx
        exact ⟨e, ⟨m, hm, hname.symm, arguments_of_argument he⟩, rfl⟩
      · cases hx
    · split at hdefault
      · cases hdefault
      · cases isWidth_of_defaultWidth hdefault

theorem validate_plan_eq_crcCheck (hc : c.builtins = .standard) (hthis : s.name ≠ "this")
    (hdecl : ∀ e, s.decl.Modified "validate" [e] → e.isCrcCheck s.name = true)
    (h : (s.plan c).value.validate.isSome = true) :
    (s.plan c).value.validate = some (.crcCheck s.before.length) := by
  obtain ⟨condition, hcondition⟩ := Option.isSome_iff_exists.mp h
  obtain ⟨e, hmodified, rfl⟩ := exists_bind_of_validate hcondition
  rw [hcondition, ownScope, Context.bind_of_isCrcCheck hc hthis (hdecl e hmodified)]
  rfl

end FieldSite

/-- A field whose declaration has this validation and no other has the condition in its plan. -/
theorem Context.validate_eq_crcCheck {c : Context} (hc : c.builtins = .standard) {p : Protocol}
    {m : MessageDecl} {i : Nat} (hi : i < (c.plan p m).value.fields.length)
    {decl : FieldDecl} (hdecl : (allFields p m).value[i]? = some decl) (hthis : decl.name ≠ "this")
    (hcheck : ∀ e, decl.Modified "validate" [e] → e.isCrcCheck decl.name = true)
    (h : (c.plan p m).value.fields[i].validate.isSome = true) :
    (c.plan p m).value.fields[i].validate = some (.crcCheck i) := by
  obtain ⟨hi', rfl⟩ := List.getElem?_eq_some_iff.mp hdecl
  rw [fields_plan i hi hi'] at h ⊢
  have hbefore : (FieldSite.among (allFields p m).value i hi').before.length = i := by
    simp [FieldSite.among, Nat.le_of_lt hi']
  have hvalidate := FieldSite.validate_plan_eq_crcCheck
    (s := .among (allFields p m).value i hi') hc hthis hcheck h
  rwa [hbefore] at hvalidate

section

variable {input : Bytes} {slots : List (Option Value)} {place : Nat} {v : Operand}

/-- The last position but two is included in the slice, so it ends where the last two bytes begin;
there is none where there are fewer than three bytes. -/
theorem Formula.eval_checkedBytes :
    checkedBytes.eval ⟨some input, slots⟩ =
      if 3 ≤ input.length then .ok (.bytes (input.take (input.length - 2)))
      else .error (.sliceOutOfBounds ⟨0, by decide⟩ ⟨-3, by decide⟩ input.length) := by
  change bytesBetween input ⟨0, _⟩ ⟨-3, _⟩ = _
  unfold bytesBetween sliceBounds? resolve?
  by_cases h : 3 ≤ input.length
  · have hstop : ((input.length : Int) + -3).toNat + 1 = input.length - 2 := by omega
    simp [h, hstop, show (0 : Int) ≤ input.length + -3 by omega]
  · simp [h, show ¬(0 : Int) ≤ input.length + -3 by omega]

theorem Formula.eval_crcCheck (hslot : slotValue slots place = .ok v) :
    (crcCheck place).eval ⟨some input, slots⟩ =
      if 3 ≤ input.length then
        .ok (.bool ((Operand.ofUInt64
          (Checksum.crc16 (input.take (input.length - 2))).toUInt64).order? v == some .eq))
      else .error (.sliceOutOfBounds ⟨0, by decide⟩ ⟨-3, by decide⟩ input.length) := by
  simp only [crcCheck, eval, eval_checkedBytes, hslot]
  split <;> rfl

end

theorem IntKind.val_ofBits_u16 {n : Nat} (h : n < 256 ^ 2) : (IntKind.u16.ofBits n).val = n := by
  change ((n : Int) - 0) % (65536 : Nat) + 0 = n
  omega

namespace FieldPlan

variable {f : FieldPlan} {input : Bytes} {all : List (Option Value)} {start stop : Nat}
  {slot : Option Value}

theorem valid_iff_of_crcCheck {place : Nat} (hvalidate : f.validate = some (.crcCheck place))
    {kind : IntKind} {x : kind.Number} (hslot : all[place]? = some (some (.int kind x))) :
    f.Valid ⟨some input, all⟩ ↔ 3 ≤ input.length ∧
      ((Checksum.crc16 (input.take (input.length - 2))).toNat : Int) = x.val := by
  have hvalue : Formula.slotValue all place = .ok (.ofValue (.int kind x)) := by
    simp [Formula.slotValue, hslot]
  have hvalid : f.Valid ⟨some input, all⟩ ↔
      ∃ y, (Formula.crcCheck place).eval ⟨some input, all⟩ = .ok y ∧ y.truthy = true := by
    simp [Valid, hvalidate]
  rw [hvalid, Formula.eval_crcCheck hvalue]
  by_cases hlength : 3 ≤ input.length
  · simp [hlength, Operand.ofUInt64, Operand.ofValue, Operand.order?, Operand.truthy,
      Int128.ofUInt64]
  · simp [hlength]

/-- The field without its validation. -/
def unvalidated (f : FieldPlan) : FieldPlan := { f with validate := none }

theorem occupies_iff_unvalidated (hoptional : f.optional = false) :
    f.Occupies input all start stop slot ↔
      f.unvalidated.Occupies input all start stop slot ∧ f.Valid ⟨some input, all⟩ := by
  cases slot with
  | none => simp [occupies_none, hoptional, unvalidated]
  | some v =>
      have hvalid : f.unvalidated.Valid ⟨some input, all⟩ := by simp [Valid, unvalidated]
      rw [occupies_some, occupies_some]
      constructor
      · rintro ⟨hpresent, hstart, hstop, htakes, hdecode, hin, hvalid'⟩
        exact ⟨⟨hpresent, hstart, hstop, htakes, hdecode, hin, hvalid⟩, hvalid'⟩
      · rintro ⟨⟨hpresent, hstart, hstop, htakes, hdecode, hin, _⟩, hvalid'⟩
        exact ⟨hpresent, hstart, hstop, htakes, hdecode, hin, hvalid'⟩

/-- A number of two bytes that ends with the input is made of its last two. -/
theorem Occupies.eq_of_u16_little (h : f.Occupies input all start input.length slot)
    (hsized : f.Sized) (hoptional : f.optional = false) (htype : f.type = .int .u16)
    (horder : f.order = .little) :
    input.length = start + 2 ∧ ∃ x : IntKind.u16.Number,
      slot = some (.int .u16 x) ∧ x.val = ByteOrder.readLittle (input.drop start) := by
  cases slot with
  | none => simp [occupies_none, hoptional] at h
  | some v =>
      obtain ⟨_, hstart, _, htakes, hdecode, _⟩ := occupies_some.mp h
      have hwidth : f.width = .fixed 2 := hsized.fixed 2 (by rw [htype]; rfl)
      simp only [Takes, hwidth] at htakes
      have hlast : (input.drop start).take (input.length - start) = input.drop start :=
        List.take_of_length_le (by simp)
      rw [hlast] at hdecode
      simp only [decode, htype, horder, ByteOrder.read, Except.ok.injEq] at hdecode
      refine ⟨by omega, _, congrArg some hdecode.symm, ?_⟩
      have hread := ByteOrder.readLittle_lt (input.drop start)
      rw [List.length_drop, htakes] at hread
      exact IntKind.val_ofBits_u16 hread

end FieldPlan

namespace Plan

variable {p : Plan} {input : Bytes} {front : List FieldPlan} {f : FieldPlan}

/-- The last field is the check of the bytes before it. -/
structure EndsInCrc (p : Plan) (front : List FieldPlan) (f : FieldPlan) : Prop where
  fields : p.fields = front ++ [f]
  optional : f.optional = false
  type : f.type = .int .u16
  order : f.order = .little
  validate : f.validate = some (.crcCheck front.length)

/-- The plan decodes the whole input as one message. -/
def Accepts (p : Plan) (input : Bytes) : Prop :=
  ∃ r, p.decode input = .ok r ∧ r.consumed = input.length

theorem accepts_iff (hp : p.WellFormed) :
    p.Accepts input ↔ ∃ slots, Occupy input slots p.fields 0 slots input.length := by
  constructor
  · rintro ⟨r, hdecode, hconsumed⟩
    obtain ⟨slots, hslots, _⟩ := (decode_eq_ok hp).mp hdecode
    exact ⟨slots, hconsumed ▸ hslots⟩
  · rintro ⟨slots, hslots⟩
    exact ⟨⟨_, _, _, input.length⟩, (decode_eq_ok hp).mpr ⟨slots, hslots, rfl, rfl⟩, rfl⟩

theorem occupy_concat {all slots : List (Option Value)} {start stop : Nat} :
    Occupy input all (front ++ [f]) start slots stop ↔ ∃ before slot mid,
      slots = before ++ [slot] ∧ Occupy input all front start before mid ∧
        f.Occupies input all mid stop slot := by
  induction front generalizing slots start with
  | nil =>
      constructor
      · rintro (_ | ⟨hfirst, hlater⟩)
        cases hlater
        exact ⟨[], _, start, rfl, .nil, hfirst⟩
      · rintro ⟨_, slot, _, rfl, hfront, hlast⟩
        cases hfront
        exact .cons hlast .nil
  | cons g rest ih =>
      constructor
      · rintro (_ | ⟨hfirst, hlater⟩)
        obtain ⟨before, slot, mid, rfl, hfront, hlast⟩ := ih.mp hlater
        exact ⟨_ :: before, slot, mid, rfl, .cons hfirst hfront, hlast⟩
      · rintro ⟨_, slot, mid, rfl, hfront, hlast⟩
        obtain _ | ⟨hfirst, hlater⟩ := hfront
        exact .cons hfirst (ih.mpr ⟨_, slot, mid, rfl, hlater, hlast⟩)

theorem WellFormed.unvalidated (hp : p.WellFormed) (hfields : p.fields = front ++ [f]) :
    ({ p with fields := front ++ [f.unvalidated] } : Plan).WellFormed := by
  have hf : f ∈ p.fields := by simp [hfields]
  refine ⟨?_, ?_, ?_⟩
  · have hnames := hp.names_nodup
    rw [hfields, List.map_append] at hnames
    rwa [List.map_append]
  · intro i hi
    have hi' : i < (front ++ [f]).length := by simpa using hi
    have hscoped : (front ++ [f])[i].Scoped i := by
      simpa only [hfields] using hp.scopes i (hfields ▸ hi')
    change (front ++ [f.unvalidated])[i].Scoped i
    by_cases hfront : i < front.length
    · rw [List.getElem_append_left hfront] at hscoped ⊢
      exact hscoped
    · have hlast : i = front.length := by
        rw [List.length_append, List.length_singleton] at hi'
        omega
      subst hlast
      rw [List.getElem_concat_length rfl] at hscoped ⊢
      exact ⟨hscoped.width, hscoped.range, by simp [FieldPlan.unvalidated]⟩
  · intro g hg
    rcases List.mem_append.mp hg with hfront | hlast
    · exact hp.sized g (hfields ▸ List.mem_append_left _ hfront)
    · obtain rfl := List.mem_singleton.mp hlast
      exact ⟨(hp.sized f hf).fixed, (hp.sized f hf).void⟩

/-- Of the last two bytes, the validation says that they make the check of the whole input zero. -/
theorem EndsInCrc.valid_iff (h : p.EndsInCrc front f) (hsized : f.Sized)
    {before : List (Option Value)} {slot : Option Value} {mid : Nat}
    (hbefore : before.length = front.length)
    (hlast : f.unvalidated.Occupies input (before ++ [slot]) mid input.length slot) :
    f.Valid ⟨some input, before ++ [slot]⟩ ↔ 3 ≤ input.length ∧ Checksum.crc16 input = 0 := by
  obtain ⟨hlength, x, rfl, hx⟩ := hlast.eq_of_u16_little ⟨hsized.fixed, hsized.void⟩ h.optional
    h.type h.order
  have hmid : input.length - 2 = mid := by omega
  have hslot : (before ++ [some (.int .u16 x)])[front.length]? = some (some (.int .u16 x)) := by
    simp [← hbefore]
  have hcrc : Checksum.crc16 (input.take mid ++ input.drop mid) = 0 ↔
      ByteOrder.readLittle (input.drop mid) = (Checksum.crc16 (input.take mid)).toNat :=
    Checksum.crc16_append_eq_zero_iff (by rw [List.length_drop]; omega)
  rw [List.take_append_drop] at hcrc
  rw [FieldPlan.valid_iff_of_crcCheck h.validate hslot, hmid, hx, hcrc]
  omega

theorem EndsInCrc.accepts_iff (h : p.EndsInCrc front f) (hp : p.WellFormed) :
    p.Accepts input ↔ (3 ≤ input.length ∧ Checksum.crc16 input = 0) ∧
      ({ p with fields := front ++ [f.unvalidated] } : Plan).Accepts input := by
  have hsized : f.Sized := hp.sized f (by simp [h.fields])
  rw [Plan.accepts_iff hp, Plan.accepts_iff (hp.unvalidated h.fields), h.fields]
  simp only [occupy_concat]
  constructor
  · rintro ⟨_, before, slot, mid, rfl, hfront, hlast⟩
    obtain ⟨hplain, hvalid⟩ := (FieldPlan.occupies_iff_unvalidated h.optional).mp hlast
    exact ⟨(h.valid_iff hsized hfront.length_eq hplain).mp hvalid,
      _, before, slot, mid, rfl, hfront, hplain⟩
  · rintro ⟨hcheck, _, before, slot, mid, rfl, hfront, hplain⟩
    have hvalid := (h.valid_iff hsized hfront.length_eq hplain).mpr hcheck
    exact ⟨_, before, slot, mid, rfl, hfront,
      (FieldPlan.occupies_iff_unvalidated h.optional).mpr ⟨hplain, hvalid⟩⟩

/-- Of inputs of one length that differ only within two adjacent bytes, one at most is accepted. -/
theorem EndsInCrc.eq_of_agreeOutside (h : p.EndsInCrc front f) (hp : p.WellFormed) {a b : Bytes}
    (ha : p.Accepts a) (hb : p.Accepts b) (hlength : a.length = b.length) {start : Nat}
    (hagree : Checksum.AgreeOutside start 2 a b) : a = b := by
  obtain ⟨⟨_, hzero⟩, _⟩ := (h.accepts_iff hp).mp ha
  obtain ⟨⟨_, hzero'⟩, _⟩ := (h.accepts_iff hp).mp hb
  exact Checksum.eq_of_agreeOutside_of_crc16_eq hlength hagree (hzero.trans hzero'.symm)

end Plan

/-- A compiled plan whose last field is the check of the bytes before it accepts a whole input
exactly if that has three bytes at least, its own check is zero, and the plan accepts it without
the validation of the last field.  The last two bytes are then the check of those before, low byte
first, and no other accepted input of the same length differs only within two adjacent bytes. -/
theorem accepts_iff_of_endsInCrc {source : String} {o : Options} {d : Decoder}
    (h : compile source o = .ok d) {front : List FieldPlan} {f : FieldPlan}
    (hend : d.plan.EndsInCrc front f) :
    (∀ b, d.plan.Accepts b ↔ (3 ≤ b.length ∧ Checksum.crc16 b = 0) ∧
      ({ d.plan with fields := front ++ [f.unvalidated] } : Plan).Accepts b) ∧
    (∀ b, d.plan.Accepts b → b.drop (b.length - 2) =
      ByteOrder.little.write 2 (Checksum.crc16 (b.take (b.length - 2))).toNat) ∧
    ∀ a b start, d.plan.Accepts a → d.plan.Accepts b → a.length = b.length →
      Checksum.AgreeOutside start 2 a b → a = b := by
  have hp := wellFormed_of_compile h
  refine ⟨fun b => hend.accepts_iff hp, ?_, ?_⟩
  · intro b hb
    obtain ⟨⟨hlength, hzero⟩, _⟩ := (hend.accepts_iff hp).mp hb
    have htwo : (b.drop (b.length - 2)).length = 2 := by
      rw [List.length_drop]
      omega
    rw [← List.take_append_drop (b.length - 2) b, Checksum.crc16_append_eq_zero_iff htwo] at hzero
    have hwritten := ByteOrder.writeLittle_readLittle (b.drop (b.length - 2))
    rw [htwo, hzero] at hwritten
    exact hwritten.symm
  · intro a b start ha hb hlength hagree
    exact hend.eq_of_agreeOutside hp ha hb hlength hagree

/-- A count, so many bytes, and the check of both. -/
def checkedSource : String :=
  "protocol P \x7b message M \x7b uint8 n; bytes data length(n); " ++
    "uint16 crc endian(little) validate(crc16(this[0..-3]) == crc); \x7d \x7d"

theorem endsInCrc_checkedSource {d : Decoder} (h : compile checkedSource {} = .ok d) :
    ∃ front f, d.plan.EndsInCrc front f := by
  have hdeclared : (ParsedSource.ofScan (Scan.source checkedSource)).protocol.any (fun p =>
      (p.selectMessage {}).value.any fun m => (allFields p m).value[2]?.any
        fun (decl : FieldDecl) => decl.name == "crc" && decl.modifiers.all
          fun (m : Modifier) => m.name != "validate" || m.arguments.all (·.isCrcCheck "crc")) =
        true := by
    decide +kernel
  have hplanned : (compile checkedSource {}).toOption.any (fun d =>
      decide (d.plan.fields.length = 3) && d.plan.fields[2]?.any fun (f : FieldPlan) =>
        f.validate.isSome &&
          decide (f.optional = false ∧ f.type = .int .u16 ∧ f.order = .little)) = true := by
    decide +kernel
  obtain ⟨p, m, hparsed, hselected, hplan, _⟩ := exists_plan_of_compile h
  simp only [hparsed, hselected, Option.any_some, Bool.and_eq_true, Option.any_eq_true, beq_iff_eq,
    List.all_eq_true, Bool.or_eq_true, bne_iff_ne] at hdeclared
  simp only [h, Except.toOption, Option.any_some, Bool.and_eq_true, Option.any_eq_true,
    decide_eq_true_eq] at hplanned
  obtain ⟨decl, hdecl, hname, hmodifiers⟩ := hdeclared
  obtain ⟨hlength, f, hf, hvalidate, hoptional, htype, horder⟩ := hplanned
  obtain ⟨hplace, rfl⟩ := List.getElem?_eq_some_iff.mp hf
  have hcheck : ∀ e, decl.Modified "validate" [e] → e.isCrcCheck decl.name = true := by
    rintro e ⟨modifier, hmem, hvalidates, harguments⟩
    have harguments' := (hmodifiers modifier hmem).resolve_left (not_not_intro hvalidates)
    simpa [harguments, hname] using harguments'
  have hfields : d.plan.fields = d.plan.fields.take 2 ++ [d.plan.fields[2]] := by
    rw [List.take_append_getElem, List.take_of_length_le (Nat.le_of_eq hlength)]
  refine ⟨_, _, hfields, hoptional, htype, horder, ?_⟩
  rw [List.length_take_of_le (by omega)]
  simp only [hplan] at hvalidate ⊢
  exact Context.validate_eq_crcCheck rfl _ hdecl (by simp [hname]) hcheck hvalidate

theorem accepts_iff_of_endsInCrc_counted : ∃ d front f, compile checkedSource {} = .ok d ∧
    d.plan.EndsInCrc front f ∧ d.plan.Accepts [1, 7, 65, 226] ∧
      Checksum.crc16 [1, 7, 65, 226] = 0 ∧
        [65, 226] = ByteOrder.little.write 2 (Checksum.crc16 [1, 7]).toNat := by
  have hrun : (compile checkedSource {}).toOption.any (fun d =>
      (d.plan.decode [1, 7, 65, 226]).toOption.any fun r => decide (r.consumed = 4)) = true := by
    decide +kernel
  obtain ⟨d, hcompile, hrun⟩ := exists_eq_ok_of_any hrun
  obtain ⟨r, hdecode, hconsumed⟩ := exists_eq_ok_of_any hrun
  obtain ⟨front, f, hend⟩ := endsInCrc_checkedSource hcompile
  have haccepts : d.plan.Accepts [1, 7, 65, 226] := ⟨r, hdecode, of_decide_eq_true hconsumed⟩
  obtain ⟨hiff, hcheck, _⟩ := accepts_iff_of_endsInCrc hcompile hend
  exact ⟨d, front, f, hcompile, hend, haccepts, ((hiff _).mp haccepts).1.2, hcheck _ haccepts⟩

end WireSpec
