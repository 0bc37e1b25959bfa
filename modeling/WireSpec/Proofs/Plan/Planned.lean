import WireSpec.Compile
import WireSpec.Proofs.Formula.Identifiers
/-!
# What compilation promises of a plan

Decoding relies on three properties of a plan that compilation establishes: field names are
distinct, the formulas of a field refer to no later field, and the width of a field suits its type.
Each modifier contributes one setting, so the last two are shown for settings first.  The formulas
refer to no later field because each is an argument of a modifier, bound among the fields before.
-/

namespace WireSpec

/-- The formulas of the field at a place refer to the fields before it, its validation also to the
field itself. -/
structure FieldPlan.Scoped (f : FieldPlan) (place : Nat) : Prop where
  width : ∀ e, f.width = .dynamic e → e.Within place
  range : ∀ r, f.range = some r → r.least.Within place ∧ r.greatest.Within place
  validate : ∀ e, f.validate = some e → e.Within (place + 1)

/-- The field has a modifier with this name and these arguments. -/
def FieldDecl.Modified (decl : FieldDecl) (name : String) (arguments : List Expr) : Prop :=
  ∃ m ∈ decl.modifiers, m.name = name ∧ m.arguments = arguments

/-- The formulas of a field are arguments of its modifiers, bound among the fields before, and that
of its validation among these and the field itself. -/
structure FieldPlan.Resolves (f : FieldPlan) (decl : FieldDecl) (before : List String) : Prop where
  width : ∀ size, f.width = .dynamic size →
    ∃ e, decl.Modified "length" [e] ∧ size.Refers before e
  range : ∀ r, f.range = some r → ∃ least greatest, decl.Modified "range" [least, greatest] ∧
    r.least.Refers before least ∧ r.greatest.Refers before greatest
  validate : ∀ condition, f.validate = some condition →
    ∃ e, decl.Modified "validate" [e] ∧ condition.Refers (before ++ [decl.name]) e

theorem FieldPlan.Resolves.scoped {f : FieldPlan} {decl : FieldDecl} {before : List String}
    (h : f.Resolves decl before) : f.Scoped before.length := by
  refine ⟨?_, ?_, ?_⟩
  · intro size hwidth
    obtain ⟨e, _, hsize⟩ := h.width size hwidth
    exact hsize.within
  · intro r hr
    obtain ⟨least, greatest, _, hleast, hgreatest⟩ := h.range r hr
    exact ⟨hleast.within, hgreatest.within⟩
  · intro condition hcondition
    obtain ⟨e, _, hrefers⟩ := h.validate condition hcondition
    have hwithin := hrefers.within
    rwa [List.length_append] at hwithin

/-- A field of a type with a size of its own has that size, and padding has a stated one. -/
structure FieldPlan.Sized (f : FieldPlan) : Prop where
  fixed : ∀ size, f.type.fixedWidth = some size → f.width = .fixed size
  void : f.type = .void → f.width ≠ .remaining

/-- What decoding relies on. -/
structure Plan.WellFormed (p : Plan) : Prop where
  names_nodup : (p.fields.map (·.name)).Nodup
  scopes : ∀ i (hi : i < p.fields.length), p.fields[i].Scoped i
  sized : ∀ f ∈ p.fields, f.Sized

/-! ### Settings -/

/-- What a setting may change in a field, and where its formulas come from. -/
def Setting.Suits (s : FieldSite) : Setting → Prop
  | .range r => ∃ least greatest, s.decl.Modified "range" [least, greatest] ∧
      r.least.Refers s.before least ∧ r.greatest.Refers s.before greatest
  | .width w => s.type.fixedWidth = none ∧ w ≠ .remaining ∧
      ∀ size, w = .dynamic size → ∃ e, s.decl.Modified "length" [e] ∧ size.Refers s.before e
  | .validate condition =>
      ∃ e, s.decl.Modified "validate" [e] ∧ condition.Refers (s.before ++ [s.name]) e
  | .order _ | .encoding _ | .format _ | .label _ | .color _ => True

namespace FieldPlan

@[simp] theorem name_set (f : FieldPlan) (s : Setting) : (f.set s).name = f.name := by
  cases s <;> rfl

@[simp] theorem type_set (f : FieldPlan) (s : Setting) : (f.set s).type = f.type := by
  cases s <;> rfl

@[simp] theorem optional_set (f : FieldPlan) (s : Setting) : (f.set s).optional = f.optional := by
  cases s <;> rfl

@[simp] theorem name_foldl_set (f : FieldPlan) (settings : List Setting) :
    (settings.foldl set f).name = f.name := by
  induction settings generalizing f with
  | nil => rfl
  | cons s rest ih => rw [List.foldl_cons, ih, name_set]

@[simp] theorem type_foldl_set (f : FieldPlan) (settings : List Setting) :
    (settings.foldl set f).type = f.type := by
  induction settings generalizing f with
  | nil => rfl
  | cons s rest ih => rw [List.foldl_cons, ih, type_set]

@[simp] theorem optional_foldl_set (f : FieldPlan) (settings : List Setting) :
    (settings.foldl set f).optional = f.optional := by
  induction settings generalizing f with
  | nil => rfl
  | cons s rest ih => rw [List.foldl_cons, ih, optional_set]

theorem width_set_of_not_isWidth (f : FieldPlan) {s : Setting}
    (h : s.isWidth = false) : (f.set s).width = f.width := by
  cases s <;> first | rfl | cases h

/-- The width is that of the field before, where no setting is about it, and else that of one of
the settings. -/
theorem width_foldl_set (f : FieldPlan) (settings : List Setting) :
    (settings.any Setting.isWidth = false ∧ (settings.foldl set f).width = f.width) ∨
      ∃ w, .width w ∈ settings ∧ (settings.foldl set f).width = w := by
  induction settings generalizing f with
  | nil => exact Or.inl ⟨rfl, rfl⟩
  | cons s rest ih =>
      rcases ih (f.set s) with ⟨hrest, hwidth⟩ | ⟨w, hw, hwidth⟩
      · cases hs : s.isWidth with
        | false =>
            refine Or.inl ⟨by simp [hs, hrest], ?_⟩
            rw [List.foldl_cons, hwidth, width_set_of_not_isWidth f hs]
        | true =>
            cases s <;> try cases hs
            exact Or.inr ⟨_, List.mem_cons_self, by rw [List.foldl_cons, hwidth]; rfl⟩
      · exact Or.inr ⟨w, List.mem_cons_of_mem s hw, hwidth⟩

section

variable {f : FieldPlan} {s : FieldSite}

theorem Resolves.set (h : f.Resolves s.decl s.before) {x : Setting} (hx : x.Suits s) :
    (f.set x).Resolves s.decl s.before := by
  cases x with
  | range r =>
      refine ⟨h.width, ?_, h.validate⟩
      rintro _ ⟨⟩
      exact hx
  | width w => exact ⟨hx.2.2, h.range, h.validate⟩
  | validate e =>
      refine ⟨h.width, h.range, ?_⟩
      rintro _ ⟨⟩
      exact hx
  | order | encoding | format | label | color => exact ⟨h.width, h.range, h.validate⟩

theorem Resolves.foldl_set (h : f.Resolves s.decl s.before) {settings : List Setting}
    (hs : ∀ x ∈ settings, x.Suits s) :
    (settings.foldl FieldPlan.set f).Resolves s.decl s.before := by
  induction settings generalizing f with
  | nil => exact h
  | cons x rest ih =>
      obtain ⟨hfirst, hrest⟩ := List.forall_mem_cons.mp hs
      exact ih (h.set hfirst) hrest

end

end FieldPlan

namespace FieldSite

variable {c : Context} {s : FieldSite} {m : Modifier}

/-- The modifier gives no setting or one that suits the field. -/
def Gives (s : FieldSite) (given : Checked (Option Setting)) : Prop :=
  ∀ x, given.value = some x → x.Suits s

theorem gives_none {given : Checked (Option Setting)} (h : given.value = none) :
    s.Gives given := by
  simp [Gives, h]

theorem arguments_of_argument {e : Expr} (h : (s.argument m).value = some e) :
    m.arguments = [e] := by
  unfold argument at h
  split at h
  · rename_i e' hargs
    obtain rfl := Option.some.inj h
    exact hargs
  · cases h

theorem gives_range (hm : m ∈ s.decl.modifiers) (hname : m.name = "range") :
    s.Gives (s.range c m) := by
  intro x hx
  unfold range at hx
  split at hx
  · rename_i least greatest hargs
    have hx' : some (Setting.range ⟨(c.bind s.scope least).value,
        (c.bind s.scope greatest).value⟩) = some x := by
      rw [← hx]
      split <;> rfl
    obtain rfl := Option.some.inj hx'
    exact ⟨least, greatest, ⟨m, hm, hname, hargs⟩, Context.refers_bind _, Context.refers_bind _⟩
  · cases hx

theorem gives_validate (hm : m ∈ s.decl.modifiers) (hname : m.name = "validate") :
    s.Gives (s.validate c m) := by
  intro x hx
  simp only [validate, Checked.value_bind] at hx
  split at hx
  · rename_i e he
    cases hx
    exact ⟨e, ⟨m, hm, hname, arguments_of_argument he⟩, Context.refers_bind e⟩
  · cases hx

theorem suits_widthOf (position : Position) {f : Formula} {e : Expr}
    (he : s.decl.Modified "length" [e]) (h : f.Refers s.before e)
    (hs : s.type.fixedWidth = none) :
    (Setting.width (s.widthOf position f).value).Suits s := by
  unfold widthOf
  split
  · split <;> exact ⟨hs, by simp, by simp⟩
  · exact ⟨hs, by simp, by simp⟩
  · refine ⟨hs, by simp, ?_⟩
    rintro _ ⟨⟩
    exact ⟨e, he, h⟩

theorem gives_length (hm : m ∈ s.decl.modifiers) (hname : m.name = "length") :
    s.Gives (s.length c m) := by
  intro x hx
  simp only [length, Checked.value_bind] at hx
  split at hx
  · cases hx
  · rename_i e he
    split at hx
    · cases hx
    · rename_i hfixed
      cases hx
      have hlength : s.decl.Modified "length" [e] := ⟨m, hm, hname, arguments_of_argument he⟩
      exact suits_widthOf _ hlength (Context.refers_bind e) (by simpa using hfixed)

theorem gives_encoding : s.Gives (s.encoding m) := by
  intro x hx
  simp only [encoding, Checked.value_bind] at hx
  split at hx
  · cases hx
  · split at hx <;> split at hx <;> cases hx <;> trivial

theorem gives_setting (hm : m ∈ s.decl.modifiers) : s.Gives (s.setting c m) := by
  unfold setting
  split
  · rename_i hname
    exact gives_range hm hname
  · intro x hx
    obtain ⟨order, _, rfl⟩ := Option.map_eq_some_iff.mp hx
    trivial
  · rename_i hname
    exact gives_length hm hname
  · exact gives_encoding
  · intro x hx
    obtain ⟨format, _, rfl⟩ := Option.map_eq_some_iff.mp hx
    trivial
  · intro x hx
    obtain ⟨text, _, rfl⟩ := Option.map_eq_some_iff.mp hx
    trivial
  · intro x hx
    obtain ⟨text, _, rfl⟩ := Option.map_eq_some_iff.mp hx
    trivial
  · rename_i hname
    exact gives_validate hm hname
  · exact gives_none rfl

/-- Every setting of a field is that of one of its modifiers. -/
theorem exists_setting (seen : List String) {modifiers : List Modifier} {x : Setting}
    (hx : x ∈ (s.settings c seen modifiers).value) :
    ∃ m ∈ modifiers, (s.setting c m).value = some x := by
  induction modifiers generalizing seen with
  | nil => cases hx
  | cons m rest ih =>
      simp only [settings] at hx
      split at hx
      · obtain ⟨m', hm', hsetting⟩ := ih seen hx
        exact ⟨m', List.mem_cons_of_mem m hm', hsetting⟩
      · rcases List.mem_append.mp hx with hfirst | hlater
        · exact ⟨m, List.mem_cons_self, Option.mem_toList.mp hfirst⟩
        · obtain ⟨m', hm', hsetting⟩ := ih _ hlater
          exact ⟨m', List.mem_cons_of_mem m hm', hsetting⟩

theorem suits_settings (seen : List String) :
    ∀ x ∈ (s.settings c seen s.decl.modifiers).value, x.Suits s := by
  intro x hx
  obtain ⟨m, hm, hsetting⟩ := exists_setting seen hx
  exact gives_setting hm x hsetting

theorem suits_defaultWidth : ∀ x ∈ s.defaultWidth.value, x.Suits s := by
  unfold defaultWidth
  split
  · rename_i htype
    simp [Setting.Suits, htype, ScalarType.fixedWidth]
  · split <;> simp
  · split <;> simp
  · simp

/-- The settings of a field, the one for its width included. -/
def allSettings (c : Context) (s : FieldSite) : List Setting :=
  let given := (s.settings c [] s.decl.modifiers).value
  given ++ if given.any Setting.isWidth then [] else s.defaultWidth.value

/-- The field before its settings are made. -/
def base (s : FieldSite) : FieldPlan :=
  { FieldPlan.plain s.name s.type with optional := s.decl.optional }

theorem value_plan (c : Context) (s : FieldSite) :
    (s.plan c).value = (s.allSettings c).foldl FieldPlan.set s.base := by
  simp only [plan, allSettings, base, Checked.value_bind]
  split <;> rfl

theorem suits_allSettings : ∀ x ∈ s.allSettings c, x.Suits s := by
  intro x hx
  rcases List.mem_append.mp hx with hgiven | hdefault
  · exact suits_settings _ x hgiven
  · split at hdefault
    · cases hdefault
    · exact suits_defaultWidth x hdefault

@[simp] theorem name_plan : (s.plan c).value.name = s.name := by
  rw [value_plan, FieldPlan.name_foldl_set]
  rfl

@[simp] theorem type_plan : (s.plan c).value.type = s.type := by
  rw [value_plan, FieldPlan.type_foldl_set]
  rfl

@[simp] theorem optional_plan : (s.plan c).value.optional = s.decl.optional := by
  rw [value_plan, FieldPlan.optional_foldl_set]
  rfl

theorem resolves_base (decl : FieldDecl) (before : List String) : s.base.Resolves decl before := by
  refine ⟨?_, by simp [base, FieldPlan.plain], by simp [base, FieldPlan.plain]⟩
  intro e he
  cases hfixed : s.type.fixedWidth <;> simp [base, FieldPlan.plain, hfixed] at he

theorem resolves_plan : (s.plan c).value.Resolves s.decl s.before := by
  rw [value_plan]
  exact (resolves_base _ _).foldl_set suits_allSettings

/-- Padding without a length has the width zero, so some setting is always about its width. -/
theorem any_isWidth_of_void (h : s.type = .void) :
    (s.allSettings c).any Setting.isWidth = true := by
  unfold allSettings
  cases hgiven : (s.settings c [] s.decl.modifiers).value.any Setting.isWidth with
  | true => simp [hgiven]
  | false => simp [hgiven, defaultWidth, h, Setting.isWidth]

theorem sized_plan : (s.plan c).value.Sized := by
  have hwidth := FieldPlan.width_foldl_set s.base (s.allSettings c)
  refine ⟨?_, ?_⟩
  · intro size hsize
    rw [type_plan] at hsize
    rw [value_plan]
    rcases hwidth with ⟨_, hbase⟩ | ⟨w, hw, _⟩
    · rw [hbase]
      simp [base, FieldPlan.plain, hsize]
    · have hnone := (suits_allSettings _ hw).1
      rw [hsize] at hnone
      cases hnone
  · intro hvoid
    rw [type_plan] at hvoid
    rw [value_plan]
    rcases hwidth with ⟨hnone, _⟩ | ⟨w, hw, hset⟩
    · rw [any_isWidth_of_void hvoid] at hnone
      cases hnone
    · rw [hset]
      exact (suits_allSettings _ hw).2.1

/-- Only the last field of a message can take all bytes that are left. -/
theorem isLast_of_remaining (h : (s.plan c).problems = [])
    (hwidth : (s.plan c).value.width = .remaining) : s.isLast = true := by
  rw [value_plan] at hwidth
  rcases FieldPlan.width_foldl_set s.base (s.allSettings c) with ⟨hnone, hbase⟩ | ⟨w, hw, hset⟩
  · have hfixed : s.type.fixedWidth = none := by
      rw [hbase] at hwidth
      cases htype : s.type.fixedWidth with
      | none => rfl
      | some size => simp [base, FieldPlan.plain, htype] at hwidth
    have hgiven : (s.settings c [] s.decl.modifiers).value.any Setting.isWidth = false := by
      rw [allSettings, List.any_append, Bool.or_eq_false_iff] at hnone
      exact hnone.1
    have hdefault : s.defaultWidth.problems = [] := by
      simp only [plan, Checked.problems_bind, hgiven, Bool.false_eq_true, if_false,
        List.append_eq_nil_iff] at h
      exact h.2.1
    cases hlast : s.isLast with
    | true => rfl
    | false =>
        cases htype : s.type <;>
          simp [defaultWidth, htype, hlast, Checked.reportAt, Checked.report,
            ScalarType.fixedWidth] at hdefault hfixed
        have hvoid : (s.allSettings c).any Setting.isWidth = true := any_isWidth_of_void htype
        rw [hnone] at hvoid
        cases hvoid
  · rw [hset] at hwidth
    exact absurd hwidth (suits_allSettings _ hw).2.1

/-- The site of the field at a place among all fields of its message. -/
def among (decls : List FieldDecl) (place : Nat) (h : place < decls.length) : FieldSite where
  decl := decls[place]
  before := (decls.take place).map (·.name)
  isLast := decide (place + 1 = decls.length)

end FieldSite

/-! ### Messages -/

theorem names_nodup_of_repeatedBy {α : Type} {name : α → String} {items : List α}
    {seen : List String} (h : repeatedBy name seen items = []) :
    (items.map name).Nodup ∧ ∀ x ∈ items, name x ∉ seen := by
  induction items generalizing seen with
  | nil => simp
  | cons x rest ih =>
      simp only [repeatedBy] at h
      split at h
      · cases h
      · rename_i hx
        obtain ⟨hnodup, hseen⟩ := ih h
        have hfresh : ∀ y ∈ rest, name y ≠ name x ∧ name y ∉ seen := by
          intro y hy
          simpa using hseen y hy
        refine ⟨?_, ?_⟩
        · refine List.nodup_cons.mpr ⟨?_, hnodup⟩
          intro hmem
          obtain ⟨y, hy, heq⟩ := List.mem_map.mp hmem
          exact (hfresh y hy).1 heq
        · intro y hy
          rcases List.mem_cons.mp hy with rfl | hy
          · simpa using hx
          · exact (hfresh y hy).2

theorem eq_nil_of_each_reportAt {α : Type} {position : α → Position}
    {error : α → SemanticError} {items : List α}
    (h : (Checked.each (fun x => .reportAt (position x) (error x)) items).problems = []) :
    items = [] := by
  cases items with
  | nil => rfl
  | cons x rest => simp [Checked.each, Checked.reportAt, Checked.report] at h

namespace Context

variable {c : Context}

theorem value_planFields (sites : List FieldSite) :
    (c.planFields sites).value = sites.map fun s => (s.plan c).value := by
  induction sites with
  | nil => rfl
  | cons s rest ih => simp [planFields, ih]

theorem problems_planFields_eq_nil {sites : List FieldSite} :
    (c.planFields sites).problems = [] ↔ ∀ s ∈ sites, (s.plan c).problems = [] := by
  induction sites with
  | nil => simp [planFields]
  | cons s rest ih => simp [planFields, ih]

@[simp] theorem length_sitesFrom (before : List String) (decls : List FieldDecl) :
    (sitesFrom before decls).length = decls.length := by
  induction decls generalizing before with
  | nil => rfl
  | cons decl rest ih => simp [sitesFrom, ih]

theorem getElem?_sitesFrom (before : List String) (decls : List FieldDecl) (i : Nat)
    (hi : i < decls.length) :
    (sitesFrom before decls)[i]? = some
      { FieldSite.among decls i hi with
        before := before ++ (FieldSite.among decls i hi).before } := by
  induction decls generalizing before i with
  | nil => cases hi
  | cons decl rest ih =>
      cases i with
      | zero => cases rest <;> simp [sitesFrom, FieldSite.among]
      | succ i =>
          have hi' : i < rest.length := by simpa using hi
          rw [sitesFrom, List.getElem?_cons_succ, ih (before ++ [decl.name]) i hi']
          simp [FieldSite.among]

section

variable {p : Protocol} {m : MessageDecl}

@[simp] theorem length_fields_plan :
    (c.plan p m).value.fields.length = (allFields p m).value.length := by
  simp [plan, value_planFields]

theorem fields_plan (i : Nat) (hi : i < (c.plan p m).value.fields.length)
    (hi' : i < (allFields p m).value.length) :
    (c.plan p m).value.fields[i] = ((FieldSite.among (allFields p m).value i hi').plan c).value := by
  have hsite := getElem?_sitesFrom [] (allFields p m).value i hi'
  have hfield : (c.plan p m).value.fields[i]? =
      some ((FieldSite.among (allFields p m).value i hi').plan c).value := by
    simp only [plan, Checked.value_bind, Checked.value_pure, value_planFields, List.getElem?_map,
      hsite, Option.map_some, List.nil_append]
  exact Option.some.inj ((List.getElem?_eq_getElem hi).symm.trans hfield)

theorem problems_site (h : (c.plan p m).problems = []) (i : Nat)
    (hi : i < (allFields p m).value.length) :
    ((FieldSite.among (allFields p m).value i hi).plan c).problems = [] := by
  simp only [plan, Checked.problems_bind, List.append_eq_nil_iff] at h
  have hsite := List.mem_of_getElem? (getElem?_sitesFrom [] (allFields p m).value i hi)
  rw [List.nil_append] at hsite
  exact problems_planFields_eq_nil.mp h.2.2.1 _ hsite

theorem names_plan :
    (c.plan p m).value.fields.map (·.name) = (allFields p m).value.map (·.name) := by
  refine List.ext_getElem (by simp) ?_
  intro i hi hi'
  rw [List.getElem_map, List.getElem_map, fields_plan i (by simpa using hi) (by simpa using hi'),
    FieldSite.name_plan]
  rfl

theorem resolves_field (i : Nat) (hi : i < (c.plan p m).value.fields.length) :
    ∃ decl, (allFields p m).value[i]? = some decl ∧
      decl.name = (c.plan p m).value.fields[i].name ∧
        (c.plan p m).value.fields[i].Resolves decl
          (((c.plan p m).value.fields.map (·.name)).take i) := by
  have hi' : i < (allFields p m).value.length := by simpa using hi
  refine ⟨(allFields p m).value[i], List.getElem?_eq_getElem hi', ?_, ?_⟩
  · rw [fields_plan i hi hi', FieldSite.name_plan]
    rfl
  · rw [fields_plan i hi hi', names_plan, ← List.map_take]
    exact FieldSite.resolves_plan

theorem wellFormed_plan (h : (c.plan p m).problems = []) :
    (c.plan p m).value.WellFormed := by
  have hnames : ((allFields p m).value.map (·.name)).Nodup := by
    simp only [plan, Checked.problems_bind, List.append_eq_nil_iff] at h
    exact (names_nodup_of_repeatedBy (eq_nil_of_each_reportAt h.2.1)).1
  refine ⟨?_, ?_, ?_⟩
  · rw [names_plan]
    exact hnames
  · intro i hi
    have hi' : i < (allFields p m).value.length := by simpa using hi
    have hplace : (FieldSite.among (allFields p m).value i hi').before.length = i := by
      simp [FieldSite.among, Nat.le_of_lt hi']
    have hscoped : ((FieldSite.among (allFields p m).value i hi').plan c).value.Scoped
        (FieldSite.among (allFields p m).value i hi').before.length :=
      FieldSite.resolves_plan.scoped
    rw [fields_plan i hi hi']
    rwa [hplace] at hscoped
  · intro f hf
    obtain ⟨i, hi, rfl⟩ := List.getElem_of_mem hf
    rw [fields_plan i hi (by simpa using hi)]
    exact FieldSite.sized_plan

/-- Behind a field that takes all bytes that are left there is none. -/
theorem eq_nil_of_remaining (h : (c.plan p m).problems = []) {f : FieldPlan}
    {rest : List FieldPlan} (hsuffix : f :: rest <:+ (c.plan p m).value.fields)
    (hwidth : f.width = .remaining) : rest = [] := by
  obtain ⟨front, hfront⟩ := hsuffix
  have hlength : (c.plan p m).value.fields.length = front.length + (rest.length + 1) := by
    rw [← hfront, List.length_append, List.length_cons]
  have hplace : front.length < (c.plan p m).value.fields.length := by omega
  have hplace' : front.length < (allFields p m).value.length := by simpa using hplace
  have hfield : (c.plan p m).value.fields[front.length] = f := by simp [← hfront]
  rw [fields_plan front.length hplace hplace'] at hfield
  have hlast : front.length + 1 = (allFields p m).value.length := of_decide_eq_true
    (FieldSite.isLast_of_remaining (problems_site h front.length hplace') (hfield ▸ hwidth))
  rw [length_fields_plan] at hlength
  exact List.eq_nil_of_length_eq_zero (by omega)

end

end Context

/-- What the expressions of a protocol's messages are bound in. -/
def Protocol.context (p : Protocol) (o : Options) : Context where
  builtins := o.builtins
  enums := (EnumTable.ofProtocol o.builtins p).value

/-- The decoder is made of this message, and nothing is wrong with the protocol. -/
structure Protocol.Makes (p : Protocol) (o : Options) (m : MessageDecl) (d : Decoder) : Prop where
  selected : (p.selectMessage o).value = some m
  message : d.message = m.name
  plan : d.plan = ((p.context o).plan p m).value
  names : p.checkNames.problems = []
  enums : (EnumTable.ofProtocol o.builtins p).problems = []
  fields : ((p.context o).plan p m).problems = []

theorem Protocol.exists_makes_of_compile {p : Protocol} {o : Options} {d : Decoder}
    (h : p.compile o = .ok d) : ∃ m, p.Makes o m d := by
  simp only [compile] at h
  split at h
  · rename_i m plan hvalue hproblems
    obtain rfl := Except.ok.inj h
    simp only [analyze, Checked.value_bind] at hvalue
    simp only [analyze, Checked.problems_bind, List.append_eq_nil_iff] at hproblems
    split at hvalue
    · cases hvalue
    · rename_i m' hselected
      rw [hselected] at hproblems
      simp only [Checked.problems_bind, List.append_eq_nil_iff] at hproblems
      simp only [Checked.value_bind, Checked.value_pure, Option.some.injEq, Prod.mk.injEq] at hvalue
      obtain ⟨rfl, hplan⟩ := hvalue
      obtain ⟨hnames, henums, _, hfields, _⟩ := hproblems
      exact ⟨m', hselected, rfl, hplan.symm, hnames, henums, hfields⟩
  · cases h

/-- The plan of a protocol that compiles is that of a message without any problem. -/
theorem Protocol.plan_of_compile {p : Protocol} {o : Options} {d : Decoder}
    (h : p.compile o = .ok d) :
    ∃ m : MessageDecl, (p.selectMessage o).value = some m ∧
      d.plan = ((p.context o).plan p m).value ∧ ((p.context o).plan p m).problems = [] := by
  obtain ⟨m, hmakes⟩ := exists_makes_of_compile h
  exact ⟨m, hmakes.selected, hmakes.plan, hmakes.fields⟩

theorem exists_protocol_of_compile {source : String} {o : Options} {d : Decoder}
    (h : compile source o = .ok d) :
    ∃ p : Protocol, (ParsedSource.ofScan (Scan.source source)).protocol = some p ∧
      p.compile o = .ok d := by
  simp only [compile] at h
  split at h
  · cases h
  · split at h
    · rename_i p hp _
      exact ⟨p, hp, h⟩
    · cases h

/-- The plan of a decoder is that of the message selected in the protocol of its source. -/
theorem exists_plan_of_compile {source : String} {o : Options} {d : Decoder}
    (h : compile source o = .ok d) :
    ∃ (p : Protocol) (m : MessageDecl),
      (ParsedSource.ofScan (Scan.source source)).protocol = some p ∧
        (p.selectMessage o).value = some m ∧ d.plan = ((p.context o).plan p m).value ∧
          ((p.context o).plan p m).problems = [] := by
  obtain ⟨p, hparsed, hp⟩ := exists_protocol_of_compile h
  obtain ⟨m, hselected, hplan, hproblems⟩ := Protocol.plan_of_compile hp
  exact ⟨p, m, hparsed, hselected, hplan, hproblems⟩

theorem wellFormed_of_compile {source : String} {o : Options} {d : Decoder}
    (h : compile source o = .ok d) : d.plan.WellFormed := by
  obtain ⟨p, m, _, _, hplan, hproblems⟩ := exists_plan_of_compile h
  rw [hplan]
  exact Context.wellFormed_plan hproblems

theorem eq_nil_of_remaining {source : String} {o : Options} {d : Decoder}
    (h : compile source o = .ok d) {f : FieldPlan} {rest : List FieldPlan}
    (hsuffix : f :: rest <:+ d.plan.fields) (hwidth : f.width = .remaining) : rest = [] := by
  obtain ⟨p, m, _, _, hplan, hproblems⟩ := exists_plan_of_compile h
  exact Context.eq_nil_of_remaining hproblems (hplan ▸ hsuffix) hwidth

end WireSpec
