import WireSpec.Proofs.Plan.Planned
/-!
# The widths of a plan

The width of a field comes from its type, from its modifier for the length, or from what is left of
the input.  In a compiled plan, each of the three occurs only where decoding can use it.
-/

namespace WireSpec

/-- The width of a field suits its type and its declaration. -/
structure FieldPlan.Measured (f : FieldPlan) (decl : FieldDecl) (isLast : Prop) : Prop where
  type : f.type = decl.type
  fixed : ∀ size, f.type.fixedWidth = some size → f.width = .fixed size
  remaining : f.width = .remaining → isLast ∧ (f.type = .bytes ∨ f.type = .string)
  dynamic : ∀ size, f.width = .dynamic size → f.type = .bytes ∨ f.type = .string ∨ f.type = .void
  void : f.type = .void → (∀ m ∈ decl.modifiers, m.name ≠ "length") → f.width = .fixed 0

/-- The types that leave the width to the declaration. -/
theorem ScalarType.cases_of_fixedWidth {t : ScalarType} (h : t.fixedWidth = none) :
    t = .bytes ∨ t = .string ∨ t = .void := by
  cases t <;> simp_all [fixedWidth]

/-- The name of the modifier that makes a setting. -/
def Setting.modifier : Setting → String
  | .range _ => "range"
  | .order _ => "endian"
  | .width _ => "length"
  | .encoding _ => "encoding"
  | .format _ => "format"
  | .label _ => "display"
  | .color _ => "color"
  | .validate _ => "validate"

namespace FieldPlan.Sized

variable {f : FieldPlan}

theorem type_of_not_fixed (hf : f.Sized) (h : ∀ size, f.width ≠ .fixed size) :
    f.type = .bytes ∨ f.type = .string ∨ f.type = .void := by
  apply ScalarType.cases_of_fixedWidth
  cases hfixed : f.type.fixedWidth with
  | none => rfl
  | some size => exact absurd (hf.fixed size hfixed) (h size)

theorem type_of_remaining (hf : f.Sized) (h : f.width = .remaining) :
    f.type = .bytes ∨ f.type = .string := by
  rcases hf.type_of_not_fixed (by simp [h]) with hbytes | hstring | hvoid
  · exact .inl hbytes
  · exact .inr hstring
  · exact absurd h (hf.void hvoid)

end FieldPlan.Sized

namespace FieldSite

variable {c : Context} {s : FieldSite}

theorem modifier_of_setting {m : Modifier} {x : Setting}
    (hx : (s.setting c m).value = some x) : x.modifier = m.name := by
  unfold setting at hx
  split at hx
  · rename_i hname
    unfold range at hx
    split at hx
    · split at hx <;> obtain rfl := Option.some.inj hx <;> exact hname.symm
    · cases hx
  · rename_i hname
    obtain ⟨order, _, rfl⟩ := Option.map_eq_some_iff.mp hx
    exact hname.symm
  · rename_i hname
    simp only [length, Checked.value_bind] at hx
    split at hx
    · cases hx
    · split at hx
      · cases hx
      · cases hx
        exact hname.symm
  · rename_i hname
    simp only [encoding, Checked.value_bind] at hx
    split at hx
    · cases hx
    · split at hx <;> split at hx <;> cases hx <;> exact hname.symm
  · rename_i hname
    obtain ⟨format, _, rfl⟩ := Option.map_eq_some_iff.mp hx
    exact hname.symm
  · rename_i hname
    obtain ⟨text, _, rfl⟩ := Option.map_eq_some_iff.mp hx
    exact hname.symm
  · rename_i hname
    obtain ⟨text, _, rfl⟩ := Option.map_eq_some_iff.mp hx
    exact hname.symm
  · rename_i hname
    simp only [validate, Checked.value_bind] at hx
    split at hx
    · cases hx
      exact hname.symm
    · cases hx
  · cases hx

theorem width_of_void (htype : s.type = .void)
    (h : ∀ m ∈ s.decl.modifiers, m.name ≠ "length") : (s.plan c).value.width = .fixed 0 := by
  rw [value_plan]
  rcases FieldPlan.width_foldl_set s.base (s.allSettings c) with ⟨hnone, _⟩ | ⟨w, hw, hset⟩
  · rw [any_isWidth_of_void htype] at hnone
    cases hnone
  · rw [hset]
    rcases List.mem_append.mp hw with hgiven | hdefault
    · obtain ⟨m, hm, hsetting⟩ := exists_setting [] hgiven
      exact absurd (modifier_of_setting hsetting).symm (h m hm)
    · split at hdefault
      · cases hdefault
      · simpa [defaultWidth, htype] using hdefault

end FieldSite

namespace Context

variable {c : Context} {p : Protocol} {m : MessageDecl}

theorem measured_field (h : (c.plan p m).problems = []) (i : Nat)
    (hi : i < (c.plan p m).value.fields.length) :
    ∃ decl, (allFields p m).value[i]? = some decl ∧ decl.name = (c.plan p m).value.fields[i].name ∧
      (c.plan p m).value.fields[i].Measured decl
        (i + 1 = (c.plan p m).value.fields.length) := by
  have hi' : i < (allFields p m).value.length := by simpa using hi
  have hfield := fields_plan i hi hi'
  have hsized : (c.plan p m).value.fields[i].Sized := hfield ▸ FieldSite.sized_plan
  refine ⟨(allFields p m).value[i], List.getElem?_eq_getElem hi', ?_, ?_, hsized.fixed, ?_, ?_, ?_⟩
  · rw [hfield, FieldSite.name_plan]
    rfl
  · rw [hfield, FieldSite.type_plan]
    rfl
  · intro hwidth
    refine ⟨?_, hsized.type_of_remaining hwidth⟩
    rw [hfield] at hwidth
    rw [length_fields_plan]
    exact of_decide_eq_true (FieldSite.isLast_of_remaining (problems_site h i hi') hwidth)
  · intro size hwidth
    exact hsized.type_of_not_fixed (by simp [hwidth])
  · intro hvoid hmodifiers
    rw [hfield] at hvoid ⊢
    rw [FieldSite.type_plan] at hvoid
    exact FieldSite.width_of_void hvoid hmodifiers

end Context

end WireSpec
