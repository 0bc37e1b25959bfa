import WireSpec.Proofs.Names.Replacing
/-!
# Inherited fields in place of a base

The messages that a message extends are followed one after another until one extends none, names one
that is not declared, or names one that was met before.  Each declared message can be met only once,
so one of the three must come.  A message is planned as if it had all the fields of those met and
extended none; the second and third end of the line add one problem to those of that message.
-/

namespace WireSpec

/-- How the messages that a message extends come to an end. -/
inductive LineEnd where
  /-- The last extends none. -/
  | root
  /-- The last names a message that is not declared. -/
  | unknown (name : String)
  /-- The last names a message that was met before. -/
  | cycle (name : String)

/-- What is reported where a line from one message to the last ends so. -/
def LineEnd.problems (origin last : MessageDecl) :
    LineEnd → List (Option Position × SemanticError)
  | root => []
  | unknown name => [(some last.position, .unknownBase name last.name)]
  | cycle name => [(some origin.position, .inheritanceCycle name)]

theorem LineEnd.exists_problems_eq (e : LineEnd) (h : e ≠ .root) (origin last : MessageDecl) :
    ∃ problem, e.problems origin last = [problem] := by
  cases e with
  | root => exact absurd rfl h
  | unknown | cycle => exact ⟨_, rfl⟩

namespace Protocol

/-- A message extends the first of these, each of them the next, and the last of them is this. -/
inductive Ascends (p : Protocol) : MessageDecl → List MessageDecl → MessageDecl → Prop where
  | here (m : MessageDecl) : p.Ascends m [] m
  | up {m base last : MessageDecl} {bases : List MessageDecl} (hbase : m.base = some base.name)
      (hmem : base ∈ p.messages) (further : p.Ascends base bases last) :
      p.Ascends m (base :: bases) last

/-- A line of messages with this last one ends in this way. -/
inductive EndsAs (p : Protocol) (line : List MessageDecl) (last : MessageDecl) :
    LineEnd → Prop where
  | root (hbase : last.base = none) : p.EndsAs line last .root
  | unknown {name : String} (hbase : last.base = some name)
      (hname : name ∉ p.messages.map (·.name)) : p.EndsAs line last (.unknown name)
  | cycle {name : String} (hbase : last.base = some name) (hname : name ∈ line.map (·.name)) :
      p.EndsAs line last (.cycle name)

/-- Still to be visited are the declared messages whose names are not those of the met ones. -/
def Unmet (p : Protocol) (met unvisited : List MessageDecl) : Prop :=
  ∀ m, m ∈ unvisited ↔ m ∈ p.messages ∧ m.name ∉ met.map (·.name)

variable {p p' : Protocol} {o : Options} {m m' origin current base last : MessageDecl}
  {met unvisited bases : List MessageDecl} {e : LineEnd}

theorem findMessage?_of_mem (hnames : (p.messages.map (·.name)).Nodup) (hm : m ∈ p.messages) :
    p.findMessage? m.name = some m :=
  find?_name_of_mem hnames hm

theorem findMessage?_eq_none {name : String} :
    p.findMessage? name = none ↔ name ∉ p.messages.map (·.name) := by
  simp [findMessage?, List.find?_eq_none]

/-- A lineage is a message with all its bases, up to one that extends none. -/
theorem lineage_iff_ascends {line : List MessageDecl} :
    p.Lineage m line ↔
      ∃ bases last, line = m :: bases ∧ p.Ascends m bases last ∧ last.base = none := by
  constructor
  · intro h
    induction h with
    | @root m hbase => exact ⟨[], m, rfl, .here m, hbase⟩
    | derived hbase hmem further ih =>
        obtain ⟨bases, last, rfl, hascends, hlast⟩ := ih
        exact ⟨_, last, rfl, .up hbase hmem hascends, hlast⟩
  · rintro ⟨bases, last, rfl, hascends, hlast⟩
    induction hascends with
    | here m => exact .root hlast
    | up hbase hmem further ih => exact .derived hbase hmem (ih hlast)

theorem Ascends.mem_messages (h : p.Ascends m bases last) : ∀ x ∈ bases, x ∈ p.messages := by
  induction h with
  | here => simp
  | up hbase hmem further ih => exact List.forall_mem_cons.mpr ⟨hmem, ih⟩

/-! ### The walk -/

theorem unmet_self (p : Protocol) (m : MessageDecl) :
    p.Unmet [m] (messagesBut m.name p.messages) := by
  intro x
  simp [messagesBut]

theorem Unmet.concat (h : p.Unmet met unvisited) (base : MessageDecl) :
    p.Unmet (met ++ [base]) (messagesBut base.name unvisited) := by
  intro x
  rw [messagesBut, List.mem_filter, h x, List.map_append, List.mem_append, not_or, ← and_assoc]
  simp

/-- The walk takes a declared message for a new one exactly if none of its name was met. -/
theorem Unmet.any_iff (h : p.Unmet met unvisited) (hmem : base ∈ p.messages) :
    unvisited.any (·.name == base.name) = true ↔ base.name ∉ met.map (·.name) := by
  constructor
  · intro hany
    obtain ⟨x, hx, heq⟩ := List.any_eq_true.mp hany
    rw [← beq_iff_eq.mp heq]
    exact ((h x).mp hx).2
  · intro hname
    exact List.any_eq_true.mpr ⟨base, (h base).mpr ⟨hmem, hname⟩, beq_self_eq_true _⟩

/-- At the end of the line nothing is added but its problem. -/
theorem EndsAs.basesFrom_eq (h : p.EndsAs met last e) (hmem : ∀ x ∈ met, x ∈ p.messages)
    (hmet : p.Unmet met unvisited) :
    basesFrom p origin last unvisited = ⟨[], e.problems origin last⟩ := by
  rw [basesFrom]
  cases h with
  | root hbase =>
      simp only [hbase]
      rfl
  | unknown hbase hname =>
      simp only [hbase, findMessage?_eq_none.mpr hname]
      rfl
  | @cycle name hbase hname =>
      obtain ⟨x, hx, rfl⟩ := List.mem_map.mp hname
      cases hfound : p.findMessage? x.name with
      | none => exact absurd (List.mem_map_of_mem (hmem x hx)) (findMessage?_eq_none.mp hfound)
      | some base =>
          obtain ⟨hbaseMem, hbaseName⟩ := findMessage?_eq_some hfound
          have hvisited := mt (hmet.any_iff hbaseMem).mp (not_not_intro (hbaseName ▸ hname))
          rw [hbaseName] at hvisited
          simp only [hbase, hfound, hbaseName, dif_neg hvisited]
          rfl

/-- Messages that are met for the first time are the bases, and the problem is that of the end. -/
theorem Ascends.basesFrom_eq (hnames : (p.messages.map (·.name)).Nodup)
    (h : p.Ascends current bases last) (hend : p.EndsAs (met ++ bases) last e)
    (hmem : ∀ x ∈ met, x ∈ p.messages) (hmet : p.Unmet met unvisited)
    (hnodup : ((met ++ bases).map (·.name)).Nodup) :
    basesFrom p origin current unvisited = ⟨bases, e.problems origin last⟩ := by
  induction h generalizing met unvisited with
  | here last =>
      rw [List.append_nil] at hend
      exact hend.basesFrom_eq hmem hmet
  | @up m base last bases hbase hbaseMem further ih =>
      have hnew : base.name ∉ met.map (·.name) := by
        rw [List.map_append, List.map_cons] at hnodup
        intro hold
        exact (List.nodup_append.mp hnodup).2.2 _ hold _ List.mem_cons_self rfl
      have hmem' : ∀ x ∈ met ++ [base], x ∈ p.messages := by
        simpa [or_imp, forall_and] using And.intro hmem hbaseMem
      rw [List.append_cons] at hend hnodup
      rw [basesFrom]
      simp only [hbase, findMessage?_of_mem hnames hbaseMem,
        dif_pos ((hmet.any_iff hbaseMem).mpr hnew), ih hend hmem' (hmet.concat base) hnodup]
      exact congrArg (Checked.mk (base :: bases)) (List.append_nil _)

/-- Every line ends, because each step leaves fewer messages to be visited. -/
theorem exists_endsAs (current : MessageDecl) (hmet : p.Unmet met unvisited)
    (hnodup : (met.map (·.name)).Nodup) :
    ∃ bases last e, p.Ascends current bases last ∧ ((met ++ bases).map (·.name)).Nodup ∧
      p.EndsAs (met ++ bases) last e := by
  -- The induction is that of the walk, over the messages that are unvisited.
  fun_induction basesFrom p current current unvisited generalizing met with
  | case1 current unvisited hbase =>
      exact ⟨[], current, .root, .here current, by simpa using hnodup, .root hbase⟩
  | case2 current unvisited name hbase hunknown =>
      exact ⟨[], current, .unknown name, .here current, by simpa using hnodup,
        .unknown hbase (findMessage?_eq_none.mp hunknown)⟩
  | case3 current unvisited name hbase base hfound hunvisited ih =>
      obtain ⟨hbaseMem, rfl⟩ := findMessage?_eq_some hfound
      have hnew := (hmet.any_iff hbaseMem).mp hunvisited
      have hnodup' : ((met ++ [base]).map (·.name)).Nodup := by
        rw [List.map_append, List.map_singleton, ← List.concat_eq_append]
        exact hnodup.concat hnew
      obtain ⟨bases, last, e, hascends, hdistinct, hend⟩ := ih (hmet.concat base) hnodup'
      rw [← List.append_cons] at hdistinct hend
      exact ⟨base :: bases, last, e, .up hbase hbaseMem hascends, hdistinct, hend⟩
  | case4 current unvisited name hbase base hfound hvisited =>
      obtain ⟨hbaseMem, rfl⟩ := findMessage?_eq_some hfound
      have hold : base.name ∈ met.map (·.name) :=
        Decidable.of_not_not fun hnew => hvisited ((hmet.any_iff hbaseMem).mpr hnew)
      exact ⟨[], current, .cycle base.name, .here current, by simpa using hnodup,
        .cycle hbase (by simpa using hold)⟩

theorem fieldsOf_cons (m : MessageDecl) (bases : List MessageDecl) :
    fieldsOf (m :: bases) = fieldsOf bases ++ m.fields := by
  simp [fieldsOf]

/-- The fields of a message are those of its bases, the furthest first, and its own. -/
theorem allFields_eq (hnames : (p.messages.map (·.name)).Nodup) (hm : m ∈ p.messages)
    (h : p.Ascends m bases last) (hnodup : ((m :: bases).map (·.name)).Nodup)
    (hend : p.EndsAs (m :: bases) last e) :
    allFields p m = ⟨fieldsOf bases ++ m.fields, e.problems m last⟩ := by
  have hbases : basesFrom p m m (messagesBut m.name p.messages) = ⟨bases, e.problems m last⟩ :=
    h.basesFrom_eq hnames hend (by simpa using hm) (p.unmet_self m) hnodup
  rw [allFields, hbases, ← fieldsOf_cons]
  exact congrArg (Checked.mk (fieldsOf (m :: bases))) (List.append_nil _)

end Protocol

/-! ### In place of the bases -/

/-- The message with the fields of its bases, the furthest first, and then its own; it extends none.
-/
def MessageDecl.inlined (m : MessageDecl) (bases : List MessageDecl) : MessageDecl :=
  { m with base := none, fields := Protocol.fieldsOf bases ++ m.fields }

namespace Protocol

def inlined (p : Protocol) (m : MessageDecl) (bases : List MessageDecl) : Protocol :=
  { p with messages := p.messages.map fun x => if x.name = m.name then m.inlined bases else x }

variable {p p' : Protocol} {o : Options} {m m' last : MessageDecl} {bases : List MessageDecl}
  {e : LineEnd}

theorem allFields_inlined (p : Protocol) (m : MessageDecl) (bases : List MessageDecl) :
    allFields p (m.inlined bases) = pure (fieldsOf bases ++ m.fields) := by
  rw [allFields, basesFrom]
  exact congrArg (Checked.mk · []) (fieldsOf_cons _ [])

/-- What is planned of a message depends on its name and its fields and on the rules. -/
theorem exists_problems_plan (c : Context)
    (hvalue : (allFields p' m').value = (allFields p m).value) (hname : m'.name = m.name)
    (hrules : p'.rules = p.rules) :
    (c.plan p' m').value = (c.plan p m).value ∧
      ∃ others, (c.plan p m).problems = (allFields p m).problems ++ others ∧
        (c.plan p' m').problems = (allFields p' m').problems ++ others := by
  simp only [Context.plan, Checked.value_bind, Checked.value_pure, Checked.problems_bind, hvalue,
    hname, hrules]
  exact ⟨trivial, _, rfl, rfl⟩

/-- A message is planned like the one that has the fields of its bases; only the problem of its line
comes before. -/
theorem plan_eq_plan_inlined
    (hfields : allFields p m = ⟨fieldsOf bases ++ m.fields, e.problems m last⟩) (c : Context) :
    (c.plan p m).value = (c.plan (p.inlined m bases) (m.inlined bases)).value ∧
      (c.plan p m).problems =
        e.problems m last ++ (c.plan (p.inlined m bases) (m.inlined bases)).problems := by
  have hinlined := allFields_inlined (p.inlined m bases) m bases
  have hvalue :
      (allFields (p.inlined m bases) (m.inlined bases)).value = (allFields p m).value := by
    rw [hinlined, hfields]
    rfl
  obtain ⟨hplan, others, hproblems, hproblems'⟩ := exists_problems_plan c hvalue rfl rfl
  rw [hinlined] at hproblems'
  refine ⟨hplan.symm, ?_⟩
  rw [hproblems, hproblems', hfields]
  rfl

theorem name_inlined (m : MessageDecl) (bases : List MessageDecl) (x : MessageDecl) :
    (if x.name = m.name then m.inlined bases else x).name = x.name := by
  split
  · rename_i hname
    exact hname.symm
  · rfl

theorem problems_checkNames_inlined (hnames : (p.messages.map (·.name)).Nodup) :
    (p.inlined m bases).checkNames.problems = p.checkNames.problems := by
  have hnames' : ((p.inlined m bases).messages.map (·.name)).Nodup := by
    rw [inlined, List.map_map]
    simpa [Function.comp_def, name_inlined] using hnames
  have henums : (p.inlined m bases).enums = p.enums := rfl
  simp only [checkNames, Checked.problems_bind, henums,
    repeatedBy_eq_nil hnames (fun _ _ => List.not_mem_nil),
    repeatedBy_eq_nil hnames' (fun _ _ => List.not_mem_nil)]

theorem selectMessage_inlined (bases : List MessageDecl)
    (hselected : (p.selectMessage o).value = some m) :
    ((p.inlined m bases).selectMessage o).problems = (p.selectMessage o).problems ∧
      ((p.inlined m bases).selectMessage o).value = some (m.inlined bases) := by
  obtain ⟨hproblems, hvalue⟩ := selectMessage_map (o := o) (name_inlined m bases)
    (rfl : (p.inlined m bases).messages = _)
  refine ⟨hproblems, ?_⟩
  rw [hvalue, hselected, Option.map_some, if_pos rfl]

/-- The problems of a protocol are those of the one in which the message has the fields of its
bases, and among them that of its line. -/
theorem exists_problems_analyze (hnames : (p.messages.map (·.name)).Nodup)
    (hselected : (p.selectMessage o).value = some m)
    (hfields : allFields p m = ⟨fieldsOf bases ++ m.fields, e.problems m last⟩) :
    ∃ front back, (p.analyze o).problems = front ++ (e.problems m last ++ back) ∧
      ((p.inlined m bases).analyze o).problems = front ++ back := by
  obtain ⟨hselect, hselected'⟩ := selectMessage_inlined bases hselected
  obtain ⟨_, hplan⟩ := plan_eq_plan_inlined hfields (p.context o)
  have henums : EnumTable.ofProtocol o.builtins (p.inlined m bases) =
      EnumTable.ofProtocol o.builtins p := rfl
  have hcontext : (p.inlined m bases).context o = p.context o := rfl
  rw [problems_analyze hselected, problems_analyze hselected', hselect, henums, hcontext,
    problems_checkNames_inlined hnames, hplan]
  refine ⟨p.checkNames.problems ++ ((EnumTable.ofProtocol o.builtins p).problems ++
      (p.selectMessage o).problems),
    ((p.context o).plan (p.inlined m bases) (m.inlined bases)).problems, ?_, ?_⟩ <;>
    simp only [List.append_assoc]

theorem value_analyze (h : (p.selectMessage o).value = some m) :
    (p.analyze o).value = some (m, ((p.context o).plan p m).value) := by
  simp only [analyze, Checked.value_bind, h]
  rfl

/-- A message whose bases can all be found may as well have their fields. -/
theorem compile_inlined (hnames : (p.messages.map (·.name)).Nodup)
    (hselected : (p.selectMessage o).value = some m)
    (hfields : allFields p m = ⟨fieldsOf bases ++ m.fields, []⟩) :
    (p.inlined m bases).compile o = p.compile o := by
  have hroot : allFields p m = ⟨fieldsOf bases ++ m.fields, LineEnd.root.problems m m⟩ := hfields
  obtain ⟨_, hselected'⟩ := selectMessage_inlined bases hselected
  obtain ⟨front, back, hproblems, hproblems'⟩ := exists_problems_analyze hnames hselected hroot
  obtain ⟨hplan, _⟩ := plan_eq_plan_inlined hroot (p.context o)
  have hcontext : (p.inlined m bases).context o = p.context o := rfl
  have hsame : (p.analyze o).problems = front ++ back := hproblems
  simp only [compile, value_analyze hselected, value_analyze hselected', hsame, hproblems',
    hcontext, hplan]
  cases front ++ back <;> rfl

/-- Where messages have distinct names, the bases of a message end after fewer steps than there are
messages: at one that extends none, or names one that is not declared, or one that was met.  The
message is planned like one that extends none and has the fields of the bases, the furthest first,
and then its own.  The first end adds no problem to those of that message, and each of the others
one. -/
theorem plan_inherited (hnames : (p.messages.map (·.name)).Nodup) (hm : m ∈ p.messages) :
    (∃ bases last e, p.Ascends m bases last ∧ ((m :: bases).map (·.name)).Nodup ∧
      p.EndsAs (m :: bases) last e ∧ bases.length < p.messages.length) ∧
    ∀ bases last e, p.Ascends m bases last → ((m :: bases).map (·.name)).Nodup →
      p.EndsAs (m :: bases) last e →
      (allFields p m).problems = e.problems m last ∧
      (∀ c : Context,
        (c.plan p m).value = (c.plan (p.inlined m bases) (m.inlined bases)).value ∧
        (c.plan p m).problems =
          e.problems m last ++ (c.plan (p.inlined m bases) (m.inlined bases)).problems) ∧
      ∀ o : Options, (p.selectMessage o).value = some m →
        (e = .root → p.compile o = (p.inlined m bases).compile o) ∧
        (e ≠ .root → ∃ problem front back, e.problems m last = [problem] ∧
          p.compile o = .error ((front ++ problem :: back).map .ofSemantic) ∧
          ((p.inlined m bases).analyze o).problems = front ++ back) := by
  constructor
  · obtain ⟨bases, last, e, hascends, hnodup, hend⟩ :=
      exists_endsAs m (p.unmet_self m) (by simp)
    refine ⟨bases, last, e, hascends, hnodup, hend, ?_⟩
    have hsubset : (m :: bases).map (·.name) ⊆ p.messages.map (·.name) :=
      List.map_subset _ (List.cons_subset.mpr ⟨hm, hascends.mem_messages⟩)
    have hlength := (List.subperm_of_subset hnodup hsubset).length_le
    simpa using hlength
  · intro bases last e hascends hnodup hend
    have hfields := allFields_eq hnames hm hascends hnodup hend
    refine ⟨congrArg Checked.problems hfields, plan_eq_plan_inlined hfields, ?_⟩
    intro o hselected
    constructor
    · rintro rfl
      exact (compile_inlined hnames hselected hfields).symm
    · intro hnotRoot
      obtain ⟨problem, hproblem⟩ := e.exists_problems_eq hnotRoot m last
      obtain ⟨front, back, hproblems, hproblems'⟩ :=
        exists_problems_analyze hnames hselected hfields
      rw [hproblem, List.singleton_append] at hproblems
      refine ⟨problem, front, back, hproblem, ?_, hproblems'⟩
      rw [← hproblems]
      apply compile_eq_error
      simp [hproblems]

/-- A message with one field. -/
def oneField (name : String) (base : Option String) (field : String) : MessageDecl where
  name
  base
  fields := [⟨.int .u8, field, false, [], .start⟩]
  position := .start

def frameDecl : MessageDecl := oneField "Frame" none "address"
def requestDecl : MessageDecl := oneField "Request" (some "Frame") "function"
def readingDecl : MessageDecl := oneField "Reading" (some "Request") "count"
def leftDecl : MessageDecl := oneField "Left" (some "Right") "l"
def rightDecl : MessageDecl := oneField "Right" (some "Left") "r"
def loopingDecl : MessageDecl := oneField "Looping" (some "Left") "x"
def orphanDecl : MessageDecl := oneField "Orphan" (some "Nowhere") "y"

/-- Messages whose lines end in each of the three ways. -/
def family : Protocol where
  name := "Family"
  version := none
  description := none
  imports := []
  enums := []
  messages := [readingDecl, loopingDecl, orphanDecl, frameDecl, requestDecl, leftDecl, rightDecl]
  rules := none

theorem plan_inherited_family :
    (family.compile {}).toOption.any (fun d =>
      d.plan.fields.map (·.name) == ["address", "function", "count"]) = true ∧
    family.compile {} = (family.inlined readingDecl [requestDecl, frameDecl]).compile {} ∧
    (allFields family loopingDecl).problems = [(some .start, .inheritanceCycle "Left")] ∧
    (allFields family orphanDecl).problems = [(some .start, .unknownBase "Nowhere" "Orphan")] := by
  have hnames : (family.messages.map (·.name)).Nodup := by decide
  have hreading : family.Ascends readingDecl [requestDecl, frameDecl] frameDecl :=
    .up rfl (by simp [family]) (.up rfl (by simp [family]) (.here frameDecl))
  have hlooping : family.Ascends loopingDecl [leftDecl, rightDecl] rightDecl :=
    .up rfl (by simp [family]) (.up rfl (by simp [family]) (.here rightDecl))
  have hroot : family.EndsAs [readingDecl, requestDecl, frameDecl] frameDecl .root := .root rfl
  have hcycle : family.EndsAs [loopingDecl, leftDecl, rightDecl] rightDecl (.cycle "Left") :=
    .cycle rfl (by decide)
  have hunknown : family.EndsAs [orphanDecl] orphanDecl (.unknown "Nowhere") :=
    .unknown rfl (by decide)
  refine ⟨by decide +kernel, ?_, ?_, ?_⟩
  · have hplan := (plan_inherited hnames (by simp [family])).2 _ _ _ hreading (by decide) hroot
    exact (hplan.2.2 {} rfl).1 rfl
  · exact ((plan_inherited hnames (by simp [family])).2 _ _ _ hlooping (by decide) hcycle).1
  · have horphan : family.Ascends orphanDecl [] orphanDecl := .here orphanDecl
    exact ((plan_inherited hnames (by simp [family])).2 _ _ _ horphan (by decide) hunknown).1

end Protocol

end WireSpec
