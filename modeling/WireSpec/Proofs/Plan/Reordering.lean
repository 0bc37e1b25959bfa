import WireSpec.Proofs.Names.Replacing
import WireSpec.Proofs.Plan.Widths
/-!
# The order of modifiers

Modifiers with distinct names are read one by one, and each sets a part of the plan that no other
sets.  So a field has the same plan in whatever order they stand, and the same problems in some
order, whether they can be read or not.
-/

namespace WireSpec

namespace FieldPlan

/-- Settings that different modifiers make are about different parts of a plan. -/
theorem set_comm (f : FieldPlan) {x y : Setting} (h : x.modifier ≠ y.modifier) :
    (f.set x).set y = (f.set y).set x := by
  cases x <;> cases y <;> first | rfl | exact absurd rfl h

end FieldPlan

namespace FieldSite

variable {c : Context} {s : FieldSite} {seen : List String} {modifiers modifiers' : List Modifier}

/-- Where no name is repeated, the modifiers are read each by itself. -/
theorem settings_of_nodup (hnames : (modifiers.map (·.name)).Nodup)
    (hseen : seen.Disjoint (modifiers.map (·.name))) :
    (s.settings c seen modifiers).value = modifiers.filterMap (fun m => (s.setting c m).value) ∧
      (s.settings c seen modifiers).problems =
        modifiers.flatMap fun m => (s.setting c m).problems := by
  induction modifiers generalizing seen with
  | nil => exact ⟨rfl, rfl⟩
  | cons m rest ih =>
      rw [List.map_cons, List.nodup_cons] at hnames
      rw [List.map_cons, List.disjoint_cons_right] at hseen
      have hm : ¬seen.contains m.name = true := by simpa using hseen.1
      obtain ⟨hvalue, hproblems⟩ :=
        ih hnames.2 (List.disjoint_cons_left.mpr ⟨hnames.1, hseen.2⟩)
      rw [settings, if_neg hm]
      constructor
      · simp only [Checked.value_bind, Checked.value_pure, hvalue, List.filterMap_cons]
        cases (s.setting c m).value <;> rfl
      · simp [hproblems]

/-- The settings of modifiers with distinct names may be made in any order. -/
theorem foldl_set_settings (hnames : (modifiers.map (·.name)).Nodup)
    (hperm : modifiers'.Perm modifiers) (f : FieldPlan) :
    (s.settings c [] modifiers').value.foldl FieldPlan.set f =
      (s.settings c [] modifiers).value.foldl FieldPlan.set f := by
  have hnames' : (modifiers'.map (·.name)).Nodup := (hperm.map _).nodup_iff.mpr hnames
  rw [(settings_of_nodup hnames (List.disjoint_nil_left _)).1,
    (settings_of_nodup hnames' (List.disjoint_nil_left _)).1]
  refine (hperm.filterMap _).foldl_eq' ?_ f
  intro x hx y hy plan
  obtain ⟨m, hm, hmx⟩ := List.mem_filterMap.mp hx
  obtain ⟨m', hm', hmy⟩ := List.mem_filterMap.mp hy
  by_cases heq : m.name = m'.name
  · obtain rfl := List.inj_on_of_nodup_map hnames' hm hm' heq
    obtain rfl := Option.some.inj (hmx.symm.trans hmy)
    rfl
  · apply FieldPlan.set_comm
    rwa [modifier_of_setting hmx, modifier_of_setting hmy]

/-- Wherever a field stands, modifiers with distinct names make the same plan of it in any order,
and have the same problems in some order. -/
theorem plan_reordered (c : Context) (s : FieldSite) {modifiers : List Modifier}
    (hnames : (s.decl.modifiers.map (·.name)).Nodup) (hperm : modifiers.Perm s.decl.modifiers) :
    let s' : FieldSite := { s with decl := { s.decl with modifiers } }
    (s'.plan c).value = (s.plan c).value ∧ (s'.plan c).problems.Perm (s.plan c).problems := by
  intro s'
  have hnames' : (modifiers.map (·.name)).Nodup := (hperm.map _).nodup_iff.mpr hnames
  have hread : s'.settings c [] s'.decl.modifiers = s.settings c [] modifiers :=
    settings_withModifiers modifiers [] modifiers
  obtain ⟨hvalue, hproblems⟩ :=
    settings_of_nodup (c := c) (s := s) hnames (List.disjoint_nil_left _)
  obtain ⟨hvalue', hproblems'⟩ :=
    settings_of_nodup (c := c) (s := s) hnames' (List.disjoint_nil_left _)
  -- Whether a width is left to the type does not depend on the order either.
  have hwidth : (s.settings c [] modifiers).value.any Setting.isWidth =
      (s.settings c [] s.decl.modifiers).value.any Setting.isWidth := by
    rw [hvalue, hvalue']
    exact (hperm.filterMap _).any_eq
  constructor
  · have hbase : s'.base = s.base := rfl
    have hdefault : s'.defaultWidth = s.defaultWidth := rfl
    rw [value_plan, value_plan, allSettings, allSettings, hread, hwidth, List.foldl_append,
      List.foldl_append, hbase, hdefault, foldl_set_settings hnames hperm]
  · rw [problems_plan, problems_plan, hread, hwidth, hproblems, hproblems']
    exact (hperm.flatMap_right _).append (List.Perm.refl _)

/-- A text of an unknown length, with a range, in an encoding that there is not. -/
def misdescribed : FieldSite where
  decl := {
    type := .string
    name := "title"
    optional := false
    modifiers := [⟨"length", [.name .start "size"], .start⟩,
      ⟨"range", [.literal .start (.integer 0), .literal .start (.integer 9)], .start⟩,
      ⟨"encoding", [.name .start "ebcdic"], .start⟩, ⟨"format", [.name .start "hex"], .start⟩]
    position := .start }
  before := ["count"]
  isLast := false

theorem plan_reordered_misdescribed :
    let c : Context := ⟨.standard, ⟨[], []⟩⟩
    let reversed : FieldSite := { misdescribed with
      decl := { misdescribed.decl with modifiers := misdescribed.decl.modifiers.reverse } }
    (reversed.plan c).value = (misdescribed.plan c).value ∧
      (reversed.plan c).problems.Perm (misdescribed.plan c).problems ∧
      (reversed.plan c).problems ≠ (misdescribed.plan c).problems ∧
      (misdescribed.plan c).problems =
        [(some .start, .unknownIdentifier "size"), (some .start, .lengthNotInteger "title" .null),
          (some .start, .rangeNotNumeric "title" .string),
          (some .start, .unknownEncoding "ebcdic")] := by
  intro c reversed
  have hnames : (misdescribed.decl.modifiers.map (·.name)).Nodup := by decide
  obtain ⟨hvalue, hproblems⟩ := plan_reordered c misdescribed hnames (List.reverse_perm _)
  exact ⟨hvalue, hproblems, by decide +kernel, by decide +kernel⟩

end FieldSite

end WireSpec
