import Mathlib.Data.List.Forall2
import Mathlib.Data.List.Nodup
import WireSpec.Proofs.Plan.Planned
/-!
# The messages that a message extends

A message stands at the head of a line in which every message extends the next one, up to one that
extends none.  Where the names of messages are distinct there is one such line at most; a message
that is planned without a problem has one, and its fields are those of the line, read backwards.
-/

namespace WireSpec

namespace Protocol

/-- A message, the one that it extends, the one that this extends, and so on to one that extends
none. -/
inductive Lineage (p : Protocol) : MessageDecl → List MessageDecl → Prop where
  | root {m : MessageDecl} (hbase : m.base = none) : p.Lineage m [m]
  | derived {m base : MessageDecl} {line : List MessageDecl} (hbase : m.base = some base.name)
      (hmem : base ∈ p.messages) (further : p.Lineage base line) : p.Lineage m (m :: line)

/-- All fields of a line of messages, those of its last message first. -/
def fieldsOf (line : List MessageDecl) : List FieldDecl := line.reverse.flatMap (·.fields)

/-- The message that is to be compiled: the one of the given name, or else the first. -/
structure IsActive (p : Protocol) (o : Options) (m : MessageDecl) : Prop where
  mem : m ∈ p.messages
  named : ∀ name, o.message = some name → m.name = name
  first : o.message = none → p.messages.head? = some m

variable {p : Protocol} {o : Options} {m origin current : MessageDecl}
  {unvisited line line' : List MessageDecl}

theorem findMessage?_eq_some {name : String} (h : p.findMessage? name = some m) :
    m ∈ p.messages ∧ m.name = name :=
  ⟨List.mem_of_find?_eq_some h, by simpa using List.find?_some h⟩

theorem isActive_of_selectMessage (h : (p.selectMessage o).value = some m) : p.IsActive o m := by
  unfold selectMessage at h
  split at h
  · rename_i name hmessage
    split at h
    · rename_i m' hfound
      obtain rfl := Option.some.inj h
      obtain ⟨hmem, hname⟩ := findMessage?_eq_some hfound
      refine ⟨hmem, ?_, by simp [hmessage]⟩
      rintro name' hname'
      rw [hmessage] at hname'
      exact hname.trans (Option.some.inj hname')
    · cases h
  · rename_i hmessage
    split at h
    · rename_i m' rest hmessages
      obtain rfl := Option.some.inj h
      exact ⟨by simp [hmessages], by simp [hmessage], by simp [hmessages]⟩
    · cases h

/-- Distinct names make the line of a message unique. -/
theorem Lineage.unique (hnames : (p.messages.map (·.name)).Nodup) (h : p.Lineage m line)
    (h' : p.Lineage m line') : line' = line := by
  induction h generalizing line' with
  | root hbase =>
      cases h' with
      | root => rfl
      | derived hbase' => simp [hbase] at hbase'
  | derived hbase hmem further ih =>
      cases h' with
      | root hbase' => simp [hbase] at hbase'
      | derived hbase' hmem' further' =>
          have hname := Option.some.inj (hbase.symm.trans hbase')
          obtain rfl := List.inj_on_of_nodup_map hnames hmem hmem' hname
          rw [ih further']

/-- Bases that are found without a problem are the rest of a line. -/
theorem lineage_of_basesFrom (h : (basesFrom p origin current unvisited).problems = []) :
    p.Lineage current (current :: (basesFrom p origin current unvisited).value) := by
  fun_induction basesFrom p origin current unvisited with
  | case1 current unvisited hbase =>
      apply Lineage.root
      exact hbase
  | case2 current unvisited name hbase hunknown =>
      simp [Checked.reportAt, Checked.report] at h
  | case3 current unvisited name hbase base hfound hunvisited ih =>
      obtain ⟨hmem, rfl⟩ := findMessage?_eq_some hfound
      apply Lineage.derived hbase hmem
      apply ih
      simpa using h
  | case4 current unvisited name hbase base hfound hvisited =>
      simp [Checked.reportAt, Checked.report] at h

/-- The fields of a message that is planned without a problem are those of its line, the furthest
message first. -/
theorem exists_lineage_of_allFields (h : (allFields p m).problems = []) :
    ∃ line, p.Lineage m line ∧ (allFields p m).value = fieldsOf line := by
  simp only [allFields, Checked.problems_bind, Checked.problems_pure, List.append_nil] at h
  exact ⟨_, lineage_of_basesFrom h, rfl⟩

theorem names_nodup_of_checkNames (h : p.checkNames.problems = []) :
    (p.messages.map (·.name)).Nodup := by
  simp only [checkNames, Checked.problems_bind, List.append_eq_nil_iff] at h
  exact (names_nodup_of_repeatedBy (eq_nil_of_each_reportAt h.2)).1

end Protocol

/-- A planned field has the name and the type of a declared one and is optional if that one is. -/
structure FieldPlan.Plans (f : FieldPlan) (decl : FieldDecl) : Prop where
  name : f.name = decl.name
  type : f.type = decl.type
  optional : f.optional = decl.optional

theorem Context.plans_allFields (c : Context) (p : Protocol) (m : MessageDecl) :
    List.Forall₂ FieldPlan.Plans (c.plan p m).value.fields (allFields p m).value := by
  apply List.forall₂_iff_get.mpr
  refine ⟨Context.length_fields_plan, ?_⟩
  intro i hi hi'
  rw [List.get_eq_getElem, List.get_eq_getElem, fields_plan i hi hi']
  exact ⟨FieldSite.name_plan, FieldSite.type_plan, FieldSite.optional_plan⟩

/-- The plan of a decoder is made of the fields of its message's line. -/
theorem Protocol.Makes.exists_lineage {p : Protocol} {o : Options} {m : MessageDecl} {d : Decoder}
    (h : p.Makes o m d) :
    ∃ line, p.Lineage m line ∧
      List.Forall₂ FieldPlan.Plans d.plan.fields (Protocol.fieldsOf line) ∧
      d.plan.fields.map (·.name) = (Protocol.fieldsOf line).map (·.name) := by
  have hall : (allFields p m).problems = [] := by
    have hfields := h.fields
    simp only [Context.plan, Checked.problems_bind, List.append_eq_nil_iff] at hfields
    exact hfields.1
  obtain ⟨line, hline, hdecls⟩ := Protocol.exists_lineage_of_allFields hall
  refine ⟨line, hline, ?_, ?_⟩
  · rw [h.plan, ← hdecls]
    exact Context.plans_allFields _ p m
  · rw [h.plan, ← hdecls, Context.names_plan]

end WireSpec
