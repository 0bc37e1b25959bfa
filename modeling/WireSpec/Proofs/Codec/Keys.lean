import WireSpec.Proofs.Codec.Layout
import WireSpec.Proofs.Plan.Lineage
/-!
# The keys of a decoded record

A record is filled by inserting the values of the slots under the names of their fields.  Because
the names are distinct no insertion finds its name taken, so that the keys are the names of the
fields that are present, in the order in which the fields of the message's line are declared.
-/

namespace WireSpec

/-! ### Insertion -/

namespace Record

/-- Puts a value under a name: in the place of the value that is there, or else behind all. -/
def insert (name : String) (v : Value) : Record → Record
  | [] => [(name, v)]
  | (other, w) :: rest =>
      if other = name then (name, v) :: rest else (other, w) :: insert name v rest

/-- Inserts the values of the slots that are present, field after field. -/
def insertSlots : List FieldPlan → List (Option Value) → Record → Record
  | f :: fields, some v :: slots, r => insertSlots fields slots (r.insert f.name v)
  | _ :: fields, none :: slots, r => insertSlots fields slots r
  | _, _, r => r

theorem insert_of_not_mem {name : String} {r : Record} (v : Value) (h : name ∉ r.map (·.1)) :
    r.insert name v = r ++ [(name, v)] := by
  induction r with
  | nil => rfl
  | cons entry rest ih =>
      simp only [List.map_cons, List.mem_cons, not_or] at h
      rw [insert, if_neg (Ne.symm h.1), ih h.2, List.cons_append]

/-- Insertion under distinct names that are not yet there puts the present values behind. -/
theorem insertSlots_eq_append {fields : List FieldPlan} {slots : List (Option Value)} {r : Record}
    (hnames : (fields.map (·.name)).Nodup) (hlength : slots.length = fields.length)
    (hfresh : ∀ f ∈ fields, f.name ∉ r.map (·.1)) :
    insertSlots fields slots r = r ++ Plan.record fields slots := by
  induction fields generalizing slots r with
  | nil =>
      obtain rfl := List.eq_nil_of_length_eq_zero hlength
      simp [insertSlots, Plan.record]
  | cons f rest ih =>
      obtain ⟨slot, slots, rfl⟩ := List.exists_cons_of_length_eq_add_one hlength
      obtain ⟨hfirst, hrest⟩ := List.forall_mem_cons.mp hfresh
      obtain ⟨hnew, hnames⟩ := List.nodup_cons.mp hnames
      have hlength' : slots.length = rest.length := by simpa using hlength
      cases slot with
      | none =>
          rw [insertSlots, ih hnames hlength' hrest, Plan.record_cons]
          rfl
      | some v =>
          have hfresh' : ∀ g ∈ rest, g.name ∉ (r ++ [(f.name, v)]).map (·.1) := by
            intro g hg hmem
            rcases List.mem_append.mp (List.map_append ▸ hmem) with hold | hlast
            · exact hrest g hg hold
            · have hname : g.name = f.name := by simpa using hlast
              exact hnew (List.mem_map.mpr ⟨g, hg, hname⟩)
          rw [insertSlots, insert_of_not_mem v hfirst, ih hnames hlength' hfresh',
            Plan.record_cons, List.append_assoc]
          rfl

end Record

/-! ### Keys -/

namespace Plan

theorem keys_record_map (fields : List FieldPlan) (slot : FieldPlan → Option Value) :
    (record fields (fields.map slot)).map (·.1) =
      (fields.filter fun f => (slot f).isSome).map (·.name) := by
  induction fields with
  | nil => rfl
  | cons f rest ih =>
      rw [List.map_cons, record_cons, List.map_append, ih]
      cases hslot : slot f <;> simp [hslot]

/-- The keys of a record are the names under which it has a value. -/
theorem keys_record {fields : List FieldPlan} {slots : List (Option Value)}
    (hnames : (fields.map (·.name)).Nodup) (hlength : slots.length = fields.length) :
    (record fields slots).map (·.1) =
      (fields.map (·.name)).filter fun name => ((record fields slots).lookup name).isSome := by
  have hkeys := keys_record_map fields fun f => (record fields slots).lookup f.name
  rw [map_lookup_record hnames hlength] at hkeys
  rw [hkeys, List.filter_map]
  rfl

end Plan

/-- A result has the values of the slots under the names of the declared fields, in their order,
and leaves out no field but optional ones. -/
structure Decoded.Lists (r : Decoded) (decls : List FieldDecl) (slots : List (Option Value)) :
    Prop where
  keys : r.fields.map (·.1) =
    (decls.map (·.name)).filter fun name => (r.fields.lookup name).isSome
  values : decls.map (fun decl => r.fields.lookup decl.name) = slots
  optional : ∀ decl ∈ decls, r.fields.lookup decl.name = none → decl.optional = true

/-- Where no field is optional there are as many keys as declared fields. -/
theorem Decoded.Lists.length_eq {r : Decoded} {decls : List FieldDecl}
    {slots : List (Option Value)} (h : r.Lists decls slots)
    (hrequired : ∀ decl ∈ decls, decl.optional = false) : r.fields.length = decls.length := by
  have hall : ∀ name ∈ decls.map (·.name), (r.fields.lookup name).isSome = true := by
    intro name hname
    obtain ⟨decl, hdecl, rfl⟩ := List.mem_map.mp hname
    cases hlookup : r.fields.lookup decl.name with
    | some v => rfl
    | none =>
        have hoptional := h.optional decl hdecl hlookup
        simp [hrequired decl hdecl] at hoptional
  have hkeys := h.keys
  rw [List.filter_eq_self.mpr hall] at hkeys
  simpa using congrArg List.length hkeys

namespace Plan

variable {p : Plan} {decls : List FieldDecl} {input : Bytes} {slots : List (Option Value)}
  {offsets : Nat → Nat} {consumed : Nat}

theorem Layout.optional_of_none (h : p.Layout input slots offsets consumed) {i : Nat}
    (hi : i < p.fields.length) (hs : i < slots.length) (hslot : slots[i] = none) :
    p.fields[i].optional = true := by
  have hfield := h.field i hi hs
  rw [hslot] at hfield
  exact (FieldPlan.occupies_none.mp hfield).1.1

theorem Layout.lists (h : p.Layout input slots offsets consumed)
    (hplans : List.Forall₂ FieldPlan.Plans p.fields decls)
    (hnames : p.fields.map (·.name) = decls.map (·.name)) (hnodup : (p.fields.map (·.name)).Nodup)
    {r : Decoded} (hr : r.fields = record p.fields slots) : r.Lists decls slots := by
  have hvalues : decls.map (fun decl => r.fields.lookup decl.name) = slots := by
    calc decls.map (fun decl => r.fields.lookup decl.name)
        = (decls.map (·.name)).map (fun name => r.fields.lookup name) := by
          rw [List.map_map]
          rfl
      _ = p.fields.map (fun f => r.fields.lookup f.name) := by
          rw [← hnames, List.map_map]
          rfl
      _ = slots := by rw [hr, map_lookup_record hnodup h.length_slots]
  refine ⟨?_, hvalues, ?_⟩
  · rw [hr, ← hnames]
    exact keys_record hnodup h.length_slots
  · intro decl hdecl hnone
    obtain ⟨i, hi, rfl⟩ := List.getElem_of_mem hdecl
    have hi' : i < p.fields.length := hplans.length_eq ▸ hi
    have hs : i < slots.length := h.length_slots ▸ hi'
    have hslot : slots[i] = none := by simp [← hvalues, hnone]
    have hoptional : p.fields[i].optional = decls[i].optional := (hplans.get hi' hi).optional
    rw [← hoptional]
    exact h.optional_of_none hi' hs hslot

/-- A decoded record is filled by inserting the slots of a layout. -/
theorem WellFormed.exists_layout (hp : p.WellFormed) {r : Decoded} (h : p.decode input = .ok r) :
    ∃ slots offsets, p.Layout input slots offsets r.consumed ∧
      r.fields = record p.fields slots ∧ r.fields = Record.insertSlots p.fields slots [] := by
  obtain ⟨slots, hslots, hr, _⟩ := (decode_eq_ok hp).mp h
  obtain ⟨offsets, hlayout⟩ := occupy_iff_layout.mp hslots
  refine ⟨slots, offsets, hlayout, hr, ?_⟩
  rw [hr, Record.insertSlots_eq_append hp.names_nodup hlayout.length_slots (by simp),
    List.nil_append]

end Plan

/-- The fields of a decoder are those declared by the messages of the active one's line, the
furthest first, all of different names.  Whatever it decodes, the record is filled by inserting the
slots of its layout, and its keys are the declared fields without optional ones that are absent. -/
theorem fields_of_compile {source : String} {o : Options} {d : Decoder}
    (h : compile source o = .ok d) :
    ∃ (p : Protocol) (m : MessageDecl) (line : List MessageDecl),
      (ParsedSource.ofScan (Scan.source source)).protocol = some p ∧
      p.IsActive o m ∧ d.message = m.name ∧
      p.Lineage m line ∧ (∀ line', p.Lineage m line' → line' = line) ∧
      List.Forall₂ FieldPlan.Plans d.plan.fields (Protocol.fieldsOf line) ∧
      (d.plan.fields.map (·.name)).Nodup ∧
      ∀ input r, d.plan.decode input = .ok r →
        ∃ slots offsets, d.plan.Layout input slots offsets r.consumed ∧
          r.fields = Record.insertSlots d.plan.fields slots [] ∧
          r.Lists (Protocol.fieldsOf line) slots ∧
          ((∀ decl ∈ Protocol.fieldsOf line, decl.optional = false) →
            r.fields.length = (Protocol.fieldsOf line).length) := by
  obtain ⟨p, hparsed, hp⟩ := exists_protocol_of_compile h
  obtain ⟨m, hmakes⟩ := Protocol.exists_makes_of_compile hp
  obtain ⟨line, hline, hplans, hnames⟩ := hmakes.exists_lineage
  have hplan := wellFormed_of_compile h
  refine ⟨p, m, line, hparsed, Protocol.isActive_of_selectMessage hmakes.selected,
    hmakes.message, hline, ?_, hplans, hplan.names_nodup, ?_⟩
  · intro line' hline'
    exact hline.unique (Protocol.names_nodup_of_checkNames hmakes.names) hline'
  · intro input r hdecode
    obtain ⟨slots, offsets, hlayout, hr, hinserted⟩ := hplan.exists_layout hdecode
    have hlists := hlayout.lists hplans hnames hplan.names_nodup hr
    exact ⟨slots, offsets, hlayout, hinserted, hlists, hlists.length_eq⟩

/-- A message with a base of its own, and an optional field for which nothing is left. -/
def headedSource : String :=
  "protocol P \x7b message M extends Head \x7b bytes data length(kind); optional uint8 more; \x7d " ++
    "message Head \x7b uint8 kind; \x7d \x7d"

theorem fields_of_compile_headed : ∃ d, compile headedSource {} = .ok d ∧
    ∃ (p : Protocol) (m : MessageDecl) (line : List MessageDecl), p.IsActive {} m ∧
      p.Lineage m line ∧ List.Forall₂ FieldPlan.Plans d.plan.fields (Protocol.fieldsOf line) ∧
      ∃ r slots, d.plan.decode [2, 7, 8] = .ok r ∧ r.Lists (Protocol.fieldsOf line) slots ∧
        r.fields.map (·.1) = ["kind", "data"] := by
  have hrun : (compile headedSource {}).toOption.any (fun d =>
      (d.plan.decode [2, 7, 8]).toOption.any fun r =>
        decide (r.fields.map (·.1) = ["kind", "data"])) = true := by
    decide +kernel
  obtain ⟨d, hcompile, hrun⟩ := exists_eq_ok_of_any hrun
  obtain ⟨r, hdecode, hkeys⟩ := exists_eq_ok_of_any hrun
  obtain ⟨p, m, line, _, hactive, _, hline, _, hplans, _, hrecord⟩ := fields_of_compile hcompile
  obtain ⟨slots, _, _, _, hlists, _⟩ := hrecord [2, 7, 8] r hdecode
  exact ⟨d, hcompile, p, m, line, hactive, hline, hplans, r, slots, hdecode, hlists,
    of_decide_eq_true hkeys⟩

end WireSpec
