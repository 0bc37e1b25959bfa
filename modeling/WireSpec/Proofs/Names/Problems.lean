import Mathlib
import WireSpec.Proofs.Plan.Lineage
/-!
# Where the problems of a definition come from

The problems of a protocol are those of its parts, one after another: of its names, of its enums, of
the selection of a message, and of the fields and rules that are planned for it.  Any problem at all
makes the compilation fail.
-/

namespace WireSpec

theorem repeatedBy_eq_nil {α : Type} {name : α → String} {items : List α} {seen : List String}
    (hnames : (items.map name).Nodup) (hseen : ∀ x ∈ items, name x ∉ seen) :
    repeatedBy name seen items = [] := by
  induction items generalizing seen with
  | nil => rfl
  | cons x rest ih =>
      rw [List.map_cons, List.nodup_cons] at hnames
      have hx : ¬seen.contains (name x) = true := by simpa using hseen x List.mem_cons_self
      rw [repeatedBy, if_neg hx]
      refine ih hnames.2 fun y hy => ?_
      rw [List.mem_cons, not_or]
      exact ⟨fun heq => hnames.1 (heq ▸ List.mem_map_of_mem hy),
        hseen y (List.mem_cons_of_mem x hy)⟩

namespace FieldSite

variable {c : Context} {s : FieldSite} {seen : List String}

/-- Of modifiers without a problem, none is repeated. -/
theorem not_mem_of_problems_settings {front back : List Modifier} {m : Modifier}
    (h : (s.settings c seen (front ++ m :: back)).problems = []) :
    m.name ∉ seen ∧ m.name ∉ front.map (·.name) := by
  induction front generalizing seen with
  | nil =>
      rw [List.nil_append, settings] at h
      split at h
      · simp [Checked.reportAt, Checked.report] at h
      · rename_i hm
        exact ⟨by simpa using hm, by simp⟩
  | cons first front ih =>
      rw [List.cons_append, settings] at h
      split at h
      · simp [Checked.reportAt, Checked.report] at h
      · rw [Checked.problems_bind, Checked.problems_bind, List.append_eq_nil_iff,
          List.append_eq_nil_iff] at h
        obtain ⟨hseen, hfront⟩ := ih h.2.1
        rw [List.mem_cons, not_or] at hseen
        exact ⟨hseen.2, by simpa using ⟨hseen.1, by simpa using hfront⟩⟩

/-- The first modifier of a name is read by itself.  What is seen behind it depends on its name
alone. -/
theorem exists_settings_append {name : String} {front : List Modifier} (hseen : name ∉ seen)
    (hfront : name ∉ front.map (·.name)) (back : List Modifier) :
    ∃ seen', ∀ m : Modifier, m.name = name →
      (s.settings c seen (front ++ m :: back)).problems =
          (s.settings c seen front).problems ++
            ((s.setting c m).problems ++ (s.settings c seen' back).problems) ∧
        (s.settings c seen (front ++ m :: back)).value =
          (s.settings c seen front).value ++
            ((s.setting c m).value.toList ++ (s.settings c seen' back).value) := by
  induction front generalizing seen with
  | nil =>
      refine ⟨name :: seen, ?_⟩
      rintro m rfl
      have hm : ¬seen.contains m.name = true := by simpa using hseen
      simp only [List.nil_append, settings, if_neg hm]
      exact ⟨by simp, by simp⟩
  | cons first front ih =>
      rw [List.map_cons, List.mem_cons, not_or] at hfront
      by_cases hfirst : seen.contains first.name = true
      · obtain ⟨seen', h⟩ := ih hseen hfront.2
        refine ⟨seen', fun m hm => ?_⟩
        obtain ⟨hproblems, hvalue⟩ := h m hm
        simp only [List.cons_append, settings, if_pos hfirst, Checked.problems_bind,
          Checked.value_bind, hproblems, hvalue, List.append_assoc, true_and]
      · have hnext : name ∉ first.name :: seen := by simp [hfront.1, hseen]
        obtain ⟨seen', h⟩ := ih hnext hfront.2
        refine ⟨seen', fun m hm => ?_⟩
        obtain ⟨hproblems, hvalue⟩ := h m hm
        simp only [List.cons_append, settings, if_neg hfirst, Checked.problems_bind,
          Checked.value_bind, Checked.problems_pure, Checked.value_pure, hproblems, hvalue,
          List.append_assoc, List.append_nil, true_and]

theorem problems_plan (c : Context) (s : FieldSite) :
    (s.plan c).problems = (s.settings c [] s.decl.modifiers).problems ++
      if (s.settings c [] s.decl.modifiers).value.any Setting.isWidth then []
      else s.defaultWidth.problems := by
  simp only [plan, Checked.problems_bind]
  congr 1
  split
  · rfl
  · simp

/-! ### Ranges, lengths and validations -/

section

variable {m : Modifier} {e least greatest : Expr}

theorem problems_setting_range (hname : m.name = "range")
    (hargs : m.arguments = [least, greatest]) :
    (s.setting c m).problems =
      (if s.type.isNumeric || s.type == .char then []
        else [(some m.position, .rangeNotNumeric s.name s.type)]) ++
          ((c.bind s.scope least).problems ++ (c.bind s.scope greatest).problems) := by
  simp only [setting, hname, range, hargs]
  split <;> simp [Checked.reportAt, Checked.report]

theorem exists_value_setting_range (hname : m.name = "range")
    (hargs : m.arguments = [least, greatest]) :
    ∃ range, (s.setting c m).value = some (.range range) := by
  simp only [setting, hname, range, hargs]
  split <;> exact ⟨_, rfl⟩

theorem setting_length (hname : m.name = "length") (hargs : m.arguments = [e])
    (htype : s.type.fixedWidth = none) :
    s.setting c m = do
      let formula ← c.bind s.scope e
      return some (.width (← s.widthOf e.position formula)) := by
  simp only [setting, hname, length, argument, hargs, htype]
  rfl

theorem setting_validate (hname : m.name = "validate") (hargs : m.arguments = [e]) :
    s.setting c m = do return some (.validate (← c.bind s.ownScope e)) := by
  simp only [setting, hname, validate, argument, hargs]
  rfl

/-- A modifier with this name is read: it has as many arguments as it should, and a length is given
only where the type has none. -/
structure Reads (s : FieldSite) (m : Modifier) : Prop where
  name : m.name ∈ ["range", "length", "validate"]
  arity : m.arguments.length = if m.name = "range" then 2 else 1
  type : m.name = "length" → s.type.fixedWidth = none

theorem exists_arguments_of_problems (h : (s.argument m).problems = []) :
    ∃ e, m.arguments = [e] := by
  unfold argument at h
  split at h
  · exact ⟨_, ‹_›⟩
  · cases h

theorem reads_of_problems_setting (hname : m.name ∈ ["range", "length", "validate"])
    (h : (s.setting c m).problems = []) : s.Reads m := by
  have hcases : m.name = "range" ∨ m.name = "length" ∨ m.name = "validate" := by simpa using hname
  rcases hcases with hrange | hlength | hvalidate
  · simp only [setting, hrange, range] at h
    split at h
    · rename_i hargs
      exact ⟨hname, by simp [hrange, hargs], by simp [hrange]⟩
    · cases h
  · simp only [setting, hlength, length, Checked.problems_bind, List.append_eq_nil_iff] at h
    obtain ⟨e, hargs⟩ := exists_arguments_of_problems h.1
    refine ⟨hname, by simp [hlength, hargs], fun _ => ?_⟩
    have htype := h.2
    simp only [argument, hargs, Checked.value_pure] at htype
    split at htype
    · cases htype
    · simp_all
  · simp only [setting, hvalidate, validate, Checked.problems_bind, List.append_eq_nil_iff] at h
    obtain ⟨e, hargs⟩ := exists_arguments_of_problems h.1
    exact ⟨hname, by simp [hvalidate, hargs], by simp [hvalidate]⟩

/-- The fields that the arguments of a modifier can use. -/
def scopeOf (s : FieldSite) (modifier : String) : Scope :=
  if modifier = "validate" then s.ownScope else s.scope

/-- What is wrong with an argument is wrong with the modifier. -/
theorem Reads.subset_problems_setting (h : s.Reads m) (he : e ∈ m.arguments) :
    (c.bind (s.scopeOf m.name) e).problems ⊆ (s.setting c m).problems := by
  obtain ⟨hname, harity, htype⟩ := h
  have hcases : m.name = "range" ∨ m.name = "length" ∨ m.name = "validate" := by simpa using hname
  rcases hcases with hrange | hlength | hvalidate
  · rw [hrange, if_pos rfl] at harity
    obtain ⟨least, greatest, hargs⟩ := List.length_eq_two.mp harity
    have hscope : s.scopeOf m.name = s.scope := by simp [scopeOf, hrange]
    rw [problems_setting_range hrange hargs, hscope]
    refine List.subset_append_of_subset_right _ ?_
    rw [hargs] at he
    rcases List.mem_pair.mp he with rfl | rfl
    · exact List.subset_append_left _ _
    · exact List.subset_append_right _ _
  · simp only [hlength, String.reduceEq, if_false] at harity
    obtain ⟨e', hargs⟩ := List.length_eq_one_iff.mp harity
    obtain rfl : e = e' := by simpa [hargs] using he
    have hscope : s.scopeOf m.name = s.scope := by simp [scopeOf, hlength]
    rw [setting_length hlength hargs (htype hlength), hscope]
    exact List.subset_append_left _ _
  · simp only [hvalidate, String.reduceEq, if_false] at harity
    obtain ⟨e', hargs⟩ := List.length_eq_one_iff.mp harity
    obtain rfl : e = e' := by simpa [hargs] using he
    have hscope : s.scopeOf m.name = s.ownScope := by simp [scopeOf, hvalidate]
    rw [setting_validate hvalidate hargs, hscope]
    exact List.subset_append_left _ _

end

end FieldSite

namespace Context

variable {c : Context}

theorem problems_planFields (sites : List FieldSite) :
    (c.planFields sites).problems = sites.flatMap fun s => (s.plan c).problems := by
  induction sites with
  | nil => rfl
  | cons s rest ih => simp [planFields, ih]

theorem problems_rules (names : List String) (decls : List RuleDecl) :
    (c.rules names decls).problems = decls.flatMap fun decl => (c.rule names decl).problems := by
  induction decls with
  | nil => rfl
  | cons decl rest ih => simp [rules, ih]

end Context

namespace Protocol

variable {p : Protocol} {o : Options} {m : MessageDecl}

/-- Nothing is wrong with the names of a protocol if no two enums have one, and no two messages. -/
theorem problems_checkNames :
    p.checkNames.problems = [] ↔
      (p.enums.map (·.name)).Nodup ∧ (p.messages.map (·.name)).Nodup := by
  simp only [checkNames, Checked.problems_bind, List.append_eq_nil_iff]
  constructor
  · rintro ⟨henums, hmessages⟩
    exact ⟨(names_nodup_of_repeatedBy (eq_nil_of_each_reportAt henums)).1,
      (names_nodup_of_repeatedBy (eq_nil_of_each_reportAt hmessages)).1⟩
  · rintro ⟨henums, hmessages⟩
    rw [repeatedBy_eq_nil henums (by simp), repeatedBy_eq_nil hmessages (by simp)]
    exact ⟨rfl, rfl⟩

theorem problems_analyze (h : (p.selectMessage o).value = some m) :
    (p.analyze o).problems = p.checkNames.problems ++
      ((EnumTable.ofProtocol o.builtins p).problems ++
        ((p.selectMessage o).problems ++ ((p.context o).plan p m).problems)) := by
  simp only [analyze, Checked.problems_bind, h, Checked.problems_pure, List.append_nil]
  rfl

theorem problems_selectMessage :
    (p.selectMessage o).problems = [] ↔ (p.selectMessage o).value.isSome := by
  unfold selectMessage
  split <;> split <;> simp [Checked.report]

/-- Where nothing is wrong with the names and the enums, the problems are those of the message. -/
theorem problems_analyze_of_clean (hnames : p.checkNames.problems = [])
    (henums : (EnumTable.ofProtocol o.builtins p).problems = [])
    (hselected : (p.selectMessage o).value = some m) :
    (p.analyze o).problems = ((p.context o).plan p m).problems := by
  have hselect : (p.selectMessage o).problems = [] :=
    problems_selectMessage.mpr (by rw [hselected]; rfl)
  rw [problems_analyze hselected, hnames, henums, hselect]
  rfl

theorem Makes.problems_allFields {d : Decoder} (h : p.Makes o m d) :
    (allFields p m).problems = [] := by
  have hfields := h.fields
  simp only [Context.plan, Checked.problems_bind, List.append_eq_nil_iff] at hfields
  exact hfields.1

theorem compile_eq_error (h : (p.analyze o).problems ≠ []) :
    p.compile o = .error ((p.analyze o).problems.map .ofSemantic) := by
  simp only [compile]
  split
  · rename_i hproblems
    exact absurd hproblems h
  · rfl

end Protocol

end WireSpec
