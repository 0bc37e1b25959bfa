import WireSpec.Proofs.Names.Problems
import WireSpec.Proofs.Names.Table
/-!
# One part of a definition in place of another

Where one field, rule or member of a protocol is replaced by another with the same name, the
problems of everything else stay the same.
-/

namespace WireSpec

/-! ### Names -/

/-- A function that changes only what has one name changes nothing else of a list of distinct names.
-/
theorem map_append_cons {α : Type} {name : α → String} {g : α → α} {x : α} {front back : List α}
    (hnames : ((front ++ x :: back).map name).Nodup) (hg : ∀ y, name y ≠ name x → g y = y) :
    (front ++ x :: back).map g = front ++ g x :: back := by
  rw [List.map_append, List.map_cons] at hnames ⊢
  have hx := (List.nodup_append.mp hnames).2.2
  have hx' := (List.nodup_cons.mp (List.nodup_append.mp hnames).2.1).1
  have hfront : ∀ y ∈ front, g y = y := fun y hy =>
    hg y (hx _ (List.mem_map_of_mem hy) _ List.mem_cons_self)
  have hback : ∀ y ∈ back, g y = y := fun y hy =>
    hg y fun heq => hx' (heq ▸ List.mem_map_of_mem hy)
  rw [List.map_congr_left hfront, List.map_congr_left hback, List.map_id', List.map_id']

/-! ### Messages -/

namespace Protocol

variable {p p' : Protocol} {o : Options} {m : MessageDecl} {line : List MessageDecl}
  {g : MessageDecl → MessageDecl}

theorem Lineage.exists_of_mem (h : p.Lineage m line) {x : MessageDecl} (hx : x ∈ line) :
    ∃ further, p.Lineage x further ∧ further <:+ line := by
  induction h with
  | root hbase =>
      obtain rfl := List.mem_singleton.mp hx
      exact ⟨_, .root hbase, List.suffix_rfl⟩
  | @derived m base line hbase hmem further ih =>
      rcases List.mem_cons.mp hx with rfl | hx
      · exact ⟨_, .derived hbase hmem further, List.suffix_rfl⟩
      · obtain ⟨rest, hrest, hsuffix⟩ := ih hx
        exact ⟨rest, hrest, hsuffix.trans (List.suffix_cons _ _)⟩

theorem Lineage.mem_messages (h : p.Lineage m line) (hm : m ∈ p.messages) :
    ∀ x ∈ line, x ∈ p.messages := by
  induction h with
  | root => simpa using hm
  | derived hbase hmem further ih => simpa [hm] using ih hmem

/-- No message comes twice in a line. -/
theorem Lineage.names_nodup (hnames : (p.messages.map (·.name)).Nodup) (h : p.Lineage m line)
    (hm : m ∈ p.messages) : (line.map (·.name)).Nodup := by
  induction h with
  | root => simp
  | @derived m base line hbase hmem further ih =>
      rw [List.map_cons, List.nodup_cons]
      refine ⟨fun hname => ?_, ih hmem⟩
      obtain ⟨x, hx, hxm⟩ := List.mem_map.mp hname
      obtain rfl := List.inj_on_of_nodup_map hnames (further.mem_messages hmem x hx) hm hxm
      -- The rest of the line would have to be as long as the line.
      obtain ⟨rest, hrest, hsuffix⟩ := further.exists_of_mem hx
      have heq := Lineage.unique hnames (.derived hbase hmem further) hrest
      have hlength := hsuffix.length_le
      rw [heq, List.length_cons] at hlength
      omega

/-- A change of messages that keeps their names and the messages that they extend. -/
structure Keeps (g : MessageDecl → MessageDecl) : Prop where
  name : ∀ m, (g m).name = m.name
  base : ∀ m, (g m).base = m.base
  position : ∀ m, (g m).position = m.position

theorem messagesBut_map (hg : Keeps g) (name : String) (messages : List MessageDecl) :
    messagesBut name (messages.map g) = (messagesBut name messages).map g := by
  rw [messagesBut, messagesBut, List.filter_map]
  congr 1
  apply List.filter_congr
  intro m _
  rw [Function.comp_apply, hg.name]

theorem findMessage?_map (hg : ∀ m, (g m).name = m.name)
    (hmessages : p'.messages = p.messages.map g) (name : String) :
    p'.findMessage? name = (p.findMessage? name).map g := by
  rw [findMessage?, findMessage?, hmessages, List.find?_map]
  congr 2
  funext m
  rw [Function.comp_apply, hg]

theorem basesFrom_map (hg : Keeps g) (hmessages : p'.messages = p.messages.map g)
    (origin current : MessageDecl) (unvisited : List MessageDecl) :
    (basesFrom p' (g origin) (g current) (unvisited.map g)).problems =
        (basesFrom p origin current unvisited).problems ∧
      (basesFrom p' (g origin) (g current) (unvisited.map g)).value =
        (basesFrom p origin current unvisited).value.map g := by
  fun_induction basesFrom p origin current unvisited with
  | case1 current unvisited hbase =>
      rw [basesFrom]
      simp [hg.base, hbase]
  | case2 current unvisited name hbase hunknown =>
      rw [basesFrom]
      simp [hg.base, hbase, findMessage?_map hg.name hmessages, hunknown, hg.name, hg.position]
  | case3 current unvisited name hbase base hfound hunvisited ih =>
      have hunvisited' : (unvisited.map g).any (·.name == (g base).name) = true := by
        rw [List.any_map]
        simpa [Function.comp_def, hg.name] using hunvisited
      rw [basesFrom]
      simp only [hg.base, hbase, findMessage?_map hg.name hmessages, hfound, Option.map_some,
        dif_pos hunvisited']
      rw [hg.name, messagesBut_map hg]
      simp [ih.1, ih.2]
  | case4 current unvisited name hbase base hfound hvisited =>
      have hvisited' : ¬(unvisited.map g).any (·.name == (g base).name) = true := by
        rw [List.any_map]
        simpa [Function.comp_def, hg.name] using hvisited
      rw [basesFrom]
      simp only [hg.base, hbase, findMessage?_map hg.name hmessages, hfound, Option.map_some,
        dif_neg hvisited']
      simp [hg.name, hg.position]

/-- A changed message has the fields of its changed line. -/
theorem allFields_map (hg : Keeps g) (hmessages : p'.messages = p.messages.map g)
    (hnames : (p.messages.map (·.name)).Nodup) (hline : p.Lineage m line)
    (hclean : (allFields p m).problems = []) :
    (allFields p' (g m)).problems = [] ∧ (allFields p m).value = fieldsOf line ∧
      (allFields p' (g m)).value = fieldsOf (line.map g) := by
  have hbases : (basesFrom p m m (messagesBut m.name p.messages)).problems = [] := by
    simpa [allFields] using hclean
  obtain rfl := hline.unique hnames (lineage_of_basesFrom hbases)
  obtain ⟨hproblems, hvalue⟩ := basesFrom_map hg hmessages m m (messagesBut m.name p.messages)
  have hunvisited : messagesBut (g m).name p'.messages = (messagesBut m.name p.messages).map g := by
    rw [hg.name, hmessages, messagesBut_map hg]
  refine ⟨?_, rfl, ?_⟩
  · simp [allFields, hunvisited, hproblems, hbases]
  · simp only [allFields, hunvisited, Checked.value_bind, Checked.value_pure, hvalue, fieldsOf,
      List.map_cons]

theorem selectMessage_map (hg : ∀ m, (g m).name = m.name)
    (hmessages : p'.messages = p.messages.map g) :
    (p'.selectMessage o).problems = (p.selectMessage o).problems ∧
      (p'.selectMessage o).value = (p.selectMessage o).value.map g := by
  unfold selectMessage
  cases o.message with
  | some name =>
      simp only [findMessage?_map hg hmessages]
      cases p.findMessage? name <;> exact ⟨rfl, rfl⟩
  | none =>
      rw [hmessages]
      cases p.messages <;> exact ⟨rfl, rfl⟩

theorem fieldsOf_append_cons (front back : List MessageDecl) (x : MessageDecl) :
    fieldsOf (front ++ x :: back) = fieldsOf back ++ (x.fields ++ fieldsOf front) := by
  simp [fieldsOf]

/-- Where one message has other fields, a message that extends it has these in their place. -/
theorem Makes.exists_fields_replaced {d : Decoder} {target : MessageDecl}
    {earlier later : List MessageDecl} (hmakes : p.Makes o m d) (hline : p.Lineage m line)
    (htarget : target ∈ line) (hmessages : p.messages = earlier ++ target :: later)
    (fields : List FieldDecl) :
    let p' : Protocol := { p with messages := earlier ++ { target with fields } :: later }
    p'.checkNames.problems = [] ∧ ∃ m' front back, (p'.selectMessage o).value = some m' ∧
      (allFields p' m').problems = [] ∧ (allFields p m).value = front ++ (target.fields ++ back) ∧
      (allFields p' m').value = front ++ (fields ++ back) := by
  intro p'
  let g : MessageDecl → MessageDecl := fun x =>
    if x.name = target.name then { x with fields } else x
  have hg : Keeps g := by
    refine ⟨fun x => ?_, fun x => ?_, fun x => ?_⟩ <;> by_cases hx : x.name = target.name <;>
      simp [g, hx]
  have hgtarget : g target = { target with fields } := if_pos rfl
  have hothers : ∀ x, x.name ≠ target.name → g x = x := fun x hx => if_neg hx
  obtain ⟨henums, hnames⟩ := problems_checkNames.mp hmakes.names
  have hmessages' : p'.messages = p.messages.map g := by
    rw [hmessages, map_append_cons (hmessages ▸ hnames) hothers, hgtarget]
  -- The line of the message has no two messages of one name either.
  obtain ⟨newer, older, hsplit⟩ := List.append_of_mem htarget
  have hline' : line.map g = newer ++ { target with fields } :: older := by
    have hdistinct := hline.names_nodup hnames (isActive_of_selectMessage hmakes.selected).mem
    rw [hsplit] at hdistinct ⊢
    rw [map_append_cons hdistinct hothers, hgtarget]
  obtain ⟨hproblems, hvalue, hvalue'⟩ :=
    allFields_map hg hmessages' hnames hline hmakes.problems_allFields
  refine ⟨?_, g m, fieldsOf older, fieldsOf newer, ?_, hproblems, ?_, ?_⟩
  · refine problems_checkNames.mpr ⟨henums, ?_⟩
    rw [hmessages', List.map_map]
    simpa [Function.comp_def, hg.name] using hnames
  · rw [(selectMessage_map hg.name hmessages').2, hmakes.selected]
    rfl
  · rw [hvalue, hsplit, fieldsOf_append_cons]
  · rw [hvalue', hline', fieldsOf_append_cons]

theorem allFields_congr (hmessages : p'.messages = p.messages) (m : MessageDecl) :
    (allFields p' m).problems = (allFields p m).problems ∧
      (allFields p' m).value = (allFields p m).value := by
  have hid : Keeps id := ⟨fun _ => rfl, fun _ => rfl, fun _ => rfl⟩
  have hmessages' : p'.messages = p.messages.map id := by rw [hmessages, List.map_id]
  obtain ⟨hproblems, hvalue⟩ := basesFrom_map hid hmessages' m m (messagesBut m.name p.messages)
  simp only [id_eq, List.map_id] at hproblems hvalue
  simp [allFields, hmessages, hproblems, hvalue]

/-- A plan depends on the messages and the rules of its protocol. -/
theorem problems_plan_congr {c : Context} (hmessages : p'.messages = p.messages)
    (hrules : p'.rules = p.rules) (m : MessageDecl) :
    (c.plan p' m).problems = (c.plan p m).problems := by
  obtain ⟨hproblems, hvalue⟩ := allFields_congr hmessages m
  simp only [Context.plan, Checked.problems_bind, hproblems, hvalue, hrules, Checked.problems_pure]

end Protocol

/-! ### Modifiers -/

namespace FieldSite

variable {c : Context} {s : FieldSite}

/-- A modifier is read without a look at the others of its field. -/
theorem settings_withModifiers (modifiers : List Modifier) (seen : List String)
    (read : List Modifier) :
    ({ s with decl := { s.decl with modifiers } } : FieldSite).settings c seen read =
      s.settings c seen read := by
  induction read generalizing seen with
  | nil => rfl
  | cons m rest ih =>
      simp only [settings, ih]
      rfl

/-- Where one modifier of a field without a problem is replaced by another that gives a width if the
first does, the only problems are those of the other. -/
theorem problems_plan_replaced {front back : List Modifier} {m m' : Modifier}
    (hmodifiers : s.decl.modifiers = front ++ m :: back) (hclean : (s.plan c).problems = [])
    (hname : m'.name = m.name)
    (hwidth : (s.setting c m').value.toList.any Setting.isWidth =
      (s.setting c m).value.toList.any Setting.isWidth) :
    (({ s with decl := { s.decl with modifiers := front ++ m' :: back } } : FieldSite).plan
      c).problems = (s.setting c m').problems := by
  rw [problems_plan, List.append_eq_nil_iff, hmodifiers] at hclean
  obtain ⟨hsettings, hdefault⟩ := hclean
  obtain ⟨hseen, hfront⟩ := not_mem_of_problems_settings hsettings
  obtain ⟨seen, hall⟩ := exists_settings_append (c := c) (s := s) hseen hfront back
  obtain ⟨hproblems, hvalue⟩ := hall m rfl
  obtain ⟨hproblems', hvalue'⟩ := hall m' hname
  rw [hproblems] at hsettings
  simp only [List.append_eq_nil_iff] at hsettings
  rw [problems_plan, settings_withModifiers, hproblems', hvalue', hsettings.1, hsettings.2.2]
  rw [hvalue] at hdefault
  simp only [List.any_append, hwidth] at hdefault ⊢
  rw [List.nil_append, List.append_nil]
  exact (congrArg _ hdefault).trans (List.append_nil _)

theorem problems_setting_of_plan {front back : List Modifier} {m : Modifier}
    (hmodifiers : s.decl.modifiers = front ++ m :: back) (hclean : (s.plan c).problems = []) :
    (s.setting c m).problems = [] := by
  rw [← problems_plan_replaced hmodifiers hclean rfl rfl, ← hmodifiers]
  exact hclean

end FieldSite

/-! ### Fields and rules -/

namespace Context

variable {c : Context}

/-- Where one field of several without a problem is replaced by another of the same name, the only
problems are those of the other. -/
theorem problems_planFields_replaced {front back : List FieldDecl} {f f' : FieldDecl}
    {before : List String}
    (hclean : (c.planFields (sitesFrom before (front ++ f :: back))).problems = [])
    (hname : f'.name = f.name) :
    (c.planFields (sitesFrom before (front ++ f' :: back))).problems =
      ((FieldSite.mk f' (before ++ front.map (·.name)) back.isEmpty).plan c).problems := by
  induction front generalizing before with
  | nil =>
      rw [List.nil_append, sitesFrom, planFields, Checked.problems_bind, List.append_eq_nil_iff]
        at hclean
      have hrest := (List.append_eq_nil_iff.mp hclean.2).1
      rw [List.nil_append, sitesFrom, planFields, hname]
      simp [hrest]
  | cons first front ih =>
      rw [List.cons_append, sitesFrom, planFields, Checked.problems_bind, List.append_eq_nil_iff]
        at hclean
      have hrest := (List.append_eq_nil_iff.mp hclean.2).1
      have hlast : (front ++ f' :: back).isEmpty = (front ++ f :: back).isEmpty := by
        cases front <;> rfl
      rw [List.cons_append, sitesFrom, planFields, hlast]
      simp [hclean.1, ih hrest]

/-- What is wrong with the actions of a rule does not depend on its condition. -/
theorem problems_actions (names : List String) (r r' : Rule) (actions : List (ActionKind × Expr)) :
    (c.actions names r actions).problems = (c.actions names r' actions).problems := by
  induction actions generalizing r r' with
  | nil => rfl
  | cons action rest ih =>
      obtain ⟨kind, e⟩ := action
      cases kind <;> simp only [Context.actions, Checked.problems_bind] <;> congr 1 <;> exact ih _ _

/-- Where one condition of several rules without a problem is replaced, the only problems are those
of the other. -/
theorem problems_rules_replaced {names : List String} {front back : List RuleDecl} {r : RuleDecl}
    (hclean : (c.rules names (front ++ r :: back)).problems = []) (e : Expr) :
    (c.rules names (front ++ { r with condition := e } :: back)).problems =
      (c.bind (.fields names) e).problems := by
  simp only [problems_rules, List.flatMap_append, List.flatMap_cons, List.append_eq_nil_iff]
    at hclean ⊢
  obtain ⟨hfront, hrule, hback⟩ := hclean
  rw [rule, Checked.problems_bind, List.append_eq_nil_iff] at hrule
  rw [hfront, hback, List.append_nil, List.nil_append, rule, Checked.problems_bind,
    problems_actions names _ _ r.actions, hrule.2, List.append_nil]

section

variable {p p' : Protocol} {m m' : MessageDecl} {front back : List FieldDecl} {f f' : FieldDecl}

/-- Each field of a message without a problem is planned without one. -/
theorem problems_site_of_plan (hclean : (c.plan p m).problems = [])
    (hfields : (allFields p m).value = front ++ f :: back) :
    ((FieldSite.mk f (front.map (·.name)) back.isEmpty).plan c).problems = [] := by
  simp only [plan, Checked.problems_bind, List.append_eq_nil_iff, hfields] at hclean
  have hsite := problems_planFields_replaced hclean.2.2.1 (rfl : f.name = f.name)
  exact hsite.symm.trans hclean.2.2.1

/-- Where one field of a message is replaced by another of the same name, the only problems are
those of the other. -/
theorem problems_plan_replaced (hclean : (c.plan p m).problems = [])
    (hfields : (allFields p m).value = front ++ f :: back)
    (hproblems' : (allFields p' m').problems = [])
    (hfields' : (allFields p' m').value = front ++ f' :: back) (hrules : p'.rules = p.rules)
    (hname : f'.name = f.name) :
    (c.plan p' m').problems =
      ((FieldSite.mk f' (front.map (·.name)) back.isEmpty).plan c).problems := by
  have hnames : (front ++ f' :: back).map (·.name) = (front ++ f :: back).map (·.name) := by
    simp [hname]
  simp only [plan, Checked.problems_bind, List.append_eq_nil_iff, hfields] at hclean
  have hnodup := (names_nodup_of_repeatedBy (eq_nil_of_each_reportAt hclean.2.1)).1
  rw [← hnames] at hnodup
  have hrepeated : repeatedBy (·.name) [] (front ++ f' :: back) = [] :=
    repeatedBy_eq_nil hnodup (by simp)
  simp only [plan, Checked.problems_bind, hproblems', hfields', hrules, hnames,
    problems_planFields_replaced hclean.2.2.1 hname, hclean.2.2.2.1, hrepeated]
  simp [Checked.each]

end

end Context

/-! ### Values of enum members -/

namespace Protocol

variable {p p' : Protocol} {o : Options} {b : Builtins}

theorem tableAfter_congr (h : p'.enums.map (·.name) = p.enums.map (·.name))
    (done : List EnumDecl) : p'.tableAfter b done = p.tableAfter b done := by
  rw [tableAfter, tableAfter, h]

theorem tableAfter_append_singleton (done : List EnumDecl) (decl : EnumDecl) :
    p.tableAfter b (done ++ [decl]) =
      { p.tableAfter b done with
        known :=
          (p.tableAfter b done).known ++
            [(decl.name,
              ((p.contextAfter b done).membersFrom decl.name [] decl.members).value)] } := by
  rw [tableAfter, EnumTable.value_extend_append]
  rfl

theorem context_eq_extend {front back : List EnumDecl} {decl : EnumDecl}
    (henums : p.enums = front ++ decl :: back) :
    p.context o =
      ⟨o.builtins, (EnumTable.extend o.builtins (p.tableAfter o.builtins (front ++ [decl]))
        back).value⟩ := by
  have hlist : front ++ decl :: back = (front ++ [decl]) ++ back := by simp
  rw [context_eq, contextAfter, henums, hlist, tableAfter, tableAfter,
    EnumTable.value_extend_append]

/-- Everything else about a protocol in which the value of one member is replaced depends only on
what is computed for it. -/
theorem exists_problems_value {m : MessageDecl} (hnames : p.checkNames.problems = [])
    (hselected : (p.selectMessage o).value = some m) {front back : List EnumDecl} {decl : EnumDecl}
    {before : List (String × Expr)} {member : String} (henums : p.enums = front ++ decl :: back)
    (after : List (String × Expr)) (hnew : member ∉ before.map (·.1)) (v : Operand) :
    let c := p.contextAfter o.builtins front
    let own := (c.membersFrom decl.name [] before).value
    let others : Expr → Protocol := fun e =>
      { p with enums := front ++ { decl with members := before ++ (member, e) :: after } :: back }
    ∃ xs ys, ∀ e, (c.memberValue decl.name own member e).value = v →
      ((others e).analyze o).problems =
        xs ++ ((c.memberValue decl.name own member e).problems ++ ys) := by
  intro c own others
  have hdeclared (e : Expr) : (others e).enums.map (·.name) = p.enums.map (·.name) := by
    simp [others, henums]
  have hcontext (e : Expr) : (others e).contextAfter o.builtins front = c := by
    rw [contextAfter, tableAfter_congr (hdeclared e)]
    rfl
  have hown : own.lookup member = none :=
    (Context.lookup_membersFrom_eq_none before member).mpr hnew
  -- What is known behind the enum.
  let t : EnumTable := { p.tableAfter o.builtins front with
    known := (p.tableAfter o.builtins front).known ++
      [(decl.name, (c.membersFrom decl.name (own ++ [(member, v)]) after).value)] }
  have htable (e : Expr) (he : (c.memberValue decl.name own member e).value = v) :
      (others e).tableAfter o.builtins
        (front ++ [{ decl with members := before ++ (member, e) :: after }]) = t := by
    rw [tableAfter_append_singleton, hcontext, tableAfter_congr (hdeclared e),
      Context.value_membersFrom_append, Context.membersFrom_cons_of_new hown, Checked.value_bind,
      he]
  refine ⟨(EnumTable.extend o.builtins ⟨p.enums.map (·.name), []⟩ front).problems ++
      (c.membersFrom decl.name [] before).problems,
    (c.membersFrom decl.name (own ++ [(member, v)]) after).problems ++
      ((EnumTable.extend o.builtins t back).problems ++ ((p.selectMessage o).problems ++
        (Context.plan ⟨o.builtins, (EnumTable.extend o.builtins t back).value⟩ p m).problems)),
    fun e he => ?_⟩
  have hselected' : ((others e).selectMessage o).value = some m := hselected
  have hnames' : (others e).checkNames.problems = [] := by
    rw [problems_checkNames] at hnames ⊢
    rw [hdeclared]
    exact hnames
  have hplan : (((others e).context o).plan (others e) m).problems =
      (Context.plan ⟨o.builtins, (EnumTable.extend o.builtins t back).value⟩ p m).problems := by
    have hmessages : (others e).messages = p.messages := rfl
    have hrules : (others e).rules = p.rules := rfl
    rw [context_eq_extend rfl, htable e he, problems_plan_congr hmessages hrules]
  have hselect : (others e).selectMessage o = p.selectMessage o := rfl
  rw [problems_analyze hselected', hnames', problems_enums rfl, htable e he, hcontext, hdeclared,
    Context.problems_membersFrom_append, Context.membersFrom_cons_of_new hown, hplan, hselect]
  simp only [Checked.problems_bind, he, List.nil_append, List.append_assoc]

end Protocol

end WireSpec
