import WireSpec.Proofs.Names.Misspelling
import WireSpec.Proofs.Names.Qualified
import WireSpec.Proofs.Names.Replacing
/-!
# Misspelled names in definitions

A definition that compiles is spoilt by one name that is declared nowhere.  The name is reported
once, but what `null` is put for may be reported as well: a length that is all unknown is no
integer, and the value of an enum member that is not all unknown is no constant.  Behind such a
value, everything that uses the member meets a `null`.
-/

namespace WireSpec

namespace FieldSite

variable {c : Context} {s : FieldSite} {m : Modifier} {n : String}

theorem problems_widthOf {f : Checked Formula} {unknown : Bool}
    (h : Context.ReportedOnce f unknown) (position : Position) :
    (s.widthOf position f.value).problems.length = if unknown then 1 else 0 := by
  have hconstant := h.constant
  cases unknown with
  | true =>
      obtain ⟨v, hv⟩ := Formula.exists_const_of_constant? (by rw [hconstant]; rfl)
      rw [hv] at hconstant ⊢
      obtain rfl := Option.some.inj hconstant
      rfl
  | false =>
      cases hvalue : f.value with
      | const v => simp [hvalue, Formula.constant?] at hconstant
      | _ => rfl

theorem nil_of_length_eq_one {α : Type} {items front back : List α} {x : α} (h : items.length = 1)
    (hitems : items = front ++ x :: back) : front = [] ∧ back = [] := by
  rw [hitems, List.length_append, List.length_cons] at h
  exact ⟨List.eq_nil_of_length_eq_zero (by omega), List.eq_nil_of_length_eq_zero (by omega)⟩

/-- Of the two arguments of a range, one is replaced. -/
theorem problems_range_misspelled (hname : m.name = "range") {front back : List Expr} {e e' : Expr}
    (harity : m.arguments.length = 2) (hargs : m.arguments = front ++ e :: back)
    (hclean : (s.setting c m).problems = []) {unknown : Bool}
    (honce : Context.ReportedOnce (c.bind s.scope e') unknown) :
    let m' : Modifier := { m with arguments := front ++ e' :: back }
    (s.setting c m').problems.length = 1 ∧
      ∃ range, (s.setting c m').value = some (.range range) := by
  obtain ⟨least, greatest, hpair⟩ := List.length_eq_two.mp harity
  rw [problems_setting_range hname hpair] at hclean
  simp only [List.append_eq_nil_iff] at hclean
  obtain ⟨hnumeric, hleast, hgreatest⟩ := hclean
  have htype : s.type.isNumeric = false → s.type = .char := by simpa using hnumeric
  rw [hpair] at hargs
  rcases front with _ | ⟨first, _ | ⟨second, front⟩⟩
  · obtain ⟨rfl, rfl⟩ := List.cons.inj hargs
    intro m'
    have hname' : m'.name = "range" := hname
    have hargs' : m'.arguments = [e', greatest] := rfl
    refine ⟨?_, exists_value_setting_range hname' hargs'⟩
    rw [problems_setting_range hname' hargs']
    simpa [hgreatest, honce.problems] using htype
  · simp only [List.cons_append, List.nil_append, List.cons.injEq] at hargs
    obtain ⟨rfl, rfl, rfl⟩ := hargs
    intro m'
    have hname' : m'.name = "range" := hname
    have hargs' : m'.arguments = [least, e'] := rfl
    refine ⟨?_, exists_value_setting_range hname' hargs'⟩
    rw [problems_setting_range hname' hargs']
    simpa [hleast, honce.problems] using htype
  · simp at hargs

/-- A misspelled argument of a modifier is reported once; a length that is all unknown is reported
as `null` besides. -/
theorem Reads.setting_misspelled (hreads : s.Reads m) (hclean : (s.setting c m).problems = [])
    {front back : List Expr} {e e' : Expr} (hargs : m.arguments = front ++ e :: back)
    (hn : c.Lacks (s.scopeOf m.name) n) (h : e.Misspells n e') :
    let m' : Modifier := { m with arguments := front ++ e' :: back }
    (s.setting c m').problems.length =
        1 + (if m.name = "length" ∧ e'.isUnknown n then 1 else 0) ∧
      (s.setting c m').value.toList.any Setting.isWidth =
        (s.setting c m).value.toList.any Setting.isWidth := by
  intro m'
  have hcleanArgument : (c.bind (s.scopeOf m.name) e).problems = [] := by
    have hmem : e ∈ m.arguments := by simp [hargs]
    exact List.subset_nil.mp (hclean ▸ hreads.subset_problems_setting hmem)
  have honce := hn.reportedOnce_bind h hcleanArgument
  obtain ⟨hname, harity, htype⟩ := hreads
  have hcases : m.name = "range" ∨ m.name = "length" ∨ m.name = "validate" := by simpa using hname
  rcases hcases with hrange | hlength | hvalidate
  · rw [scopeOf, if_neg (by simp [hrange])] at honce
    rw [hrange, if_pos rfl] at harity
    obtain ⟨hproblems, range', hvalue'⟩ :=
      problems_range_misspelled hrange harity hargs hclean honce
    obtain ⟨least, greatest, hpair⟩ := List.length_eq_two.mp harity
    obtain ⟨range, hvalue⟩ := exists_value_setting_range (c := c) (s := s) hrange hpair
    refine ⟨?_, by rw [hvalue', hvalue]; rfl⟩
    rw [hproblems, if_neg (by simp [hrange])]
  · rw [scopeOf, if_neg (by simp [hlength])] at honce
    rw [hlength, if_neg (by decide)] at harity
    obtain ⟨rfl, rfl⟩ := nil_of_length_eq_one harity hargs
    have hvalue := setting_length (c := c) hlength hargs (htype hlength)
    have hvalue' : s.setting c m' = _ := setting_length (c := c) hlength rfl (htype hlength)
    rw [hvalue, hvalue']
    refine ⟨?_, rfl⟩
    simp [honce.problems, problems_widthOf honce, hlength]
  · rw [scopeOf, if_pos hvalidate] at honce
    rw [hvalidate, if_neg (by decide)] at harity
    obtain ⟨rfl, rfl⟩ := nil_of_length_eq_one harity hargs
    have hvalue := setting_validate (c := c) (s := s) hvalidate hargs
    have hvalue' : s.setting c m' = _ := setting_validate (c := c) (s := s) hvalidate rfl
    rw [hvalue, hvalue']
    refine ⟨?_, rfl⟩
    simp [honce.problems, hvalidate]

end FieldSite

/-! ### Names that nothing has -/

/-- No field, no enum and no member has this name, nor a function that can be called. -/
structure Protocol.Undeclared (p : Protocol) (o : Options) (n : String) : Prop where
  field : ∀ m ∈ p.messages, ∀ f ∈ m.fields, f.name ≠ n
  enum : ∀ e ∈ p.enums, e.name ≠ n
  member : ∀ e ∈ p.enums, ¬e.Declares n
  builtin : o.builtins.find? n = none
  this : n ≠ "this"
  length : n ≠ "length"

namespace Protocol

variable {p : Protocol} {o : Options} {n : String} {known : List EnumDecl}

theorem Undeclared.not_owned (hn : p.Undeclared o n) (hknown : known ⊆ p.enums) (enum : String) :
    (known.find? (·.name = enum)).any (decide <| ·.Declares n) = false := by
  cases hfound : known.find? (·.name = enum) with
  | none => rfl
  | some e => simpa using hn.member e (hknown (List.mem_of_find?_eq_some hfound))

theorem Undeclared.lookupMember (hn : p.Undeclared o n) (hknown : known ⊆ p.enums) :
    (p.contextAfter o.builtins known).lookupMember n = .unbound := by
  have howners : (p.owners known n).length = 0 := by
    simp [Protocol.owners, hn.not_owned hknown]
  rw [← length_owners (knows_tableAfter o.builtins known) (declared_tableAfter _ _),
    List.length_eq_zero_iff] at howners
  rw [Context.lookupMember, contextAfter, howners]

/-- An undeclared name is unknown in any scope in which nothing else has it. -/
theorem Undeclared.lacks (hn : p.Undeclared o n) (hknown : known ⊆ p.enums) {scope : Scope}
    (hscope : (p.contextAfter o.builtins known).lookup scope n =
      (p.contextAfter o.builtins known).lookupMember n) :
    (p.contextAfter o.builtins known).Lacks scope n where
  lookup := hscope.trans (hn.lookupMember hknown)
  enum := by
    refine List.lookup_eq_none_iff.mpr fun entry hentry => bne_iff_ne.mpr ?_
    have hname : entry.1 ∈ known.map (·.name) := by
      rw [← (knows_tableAfter o.builtins known).names_eq]
      exact List.mem_map_of_mem hentry
    obtain ⟨e, he, hentry⟩ := List.mem_map.mp hname
    exact fun heq => hn.enum e (hknown he) (hentry.trans heq.symm)
  member := by
    intro enum members hmembers
    have hmember := (knows_tableAfter (p := p) o.builtins known).isSome_lookup enum n
    have htable : (p.tableAfter o.builtins known).members? enum = some members := hmembers
    rw [htable, hn.not_owned hknown] at hmember
    simpa using hmember
  builtin := hn.builtin
  this := hn.this
  length := hn.length

end Protocol

/-! ### Expressions with their place -/

/-- What an expression is in its protocol. -/
inductive Usage where
  | argument (modifier : String)
  | condition
  | value

/-- The protocol has the expression among its own: in a field of the message that is compiled, as
the condition of a rule or as the value of a member.  The function puts others in its place. -/
inductive Protocol.Uses (p : Protocol) (o : Options) : Usage → Expr → (Expr → Protocol) → Prop where
  | argument {m target : MessageDecl} {line earlier later : List MessageDecl} {f : FieldDecl}
      {before after : List FieldDecl} {mod : Modifier} {front back : List Modifier} {e : Expr}
      {first rest : List Expr} (hselected : (p.selectMessage o).value = some m)
      (hline : p.Lineage m line) (htarget : target ∈ line)
      (hmessages : p.messages = earlier ++ target :: later)
      (hfields : target.fields = before ++ f :: after)
      (hmodifiers : f.modifiers = front ++ mod :: back)
      (hname : mod.name ∈ ["range", "length", "validate"])
      (harguments : mod.arguments = first ++ e :: rest) :
      p.Uses o (.argument mod.name) e fun e' =>
        let mod' : Modifier := { mod with arguments := first ++ e' :: rest }
        let f' : FieldDecl := { f with modifiers := front ++ mod' :: back }
        let target' : MessageDecl := { target with fields := before ++ f' :: after }
        { p with messages := earlier ++ target' :: later }
  | condition {r : RuleDecl} {front back : List RuleDecl}
      (hrules : p.rules = some (front ++ r :: back)) :
      p.Uses o .condition r.condition fun e' =>
        { p with rules := some (front ++ { r with condition := e' } :: back) }
  | value {decl : EnumDecl} {front back : List EnumDecl} {member : String} {e : Expr}
      {before after : List (String × Expr)} (henums : p.enums = front ++ decl :: back)
      (hmembers : decl.members = before ++ (member, e) :: after) :
      p.Uses o .value e fun e' =>
        let decl' : EnumDecl := { decl with members := before ++ (member, e') :: after }
        { p with enums := front ++ decl' :: back }

/-- The number of problems that come of the `null` in place of what a misspelled name makes unknown.
A length must not be `null`, the value of a member must be constant, and then it counts as `null`
for all that use the member. -/
def Usage.consequences (o : Options) (n : String) (others : Expr → Protocol) (e : Expr) :
    Usage → Nat
  | .argument modifier => if modifier = "length" ∧ e.isUnknown n then 1 else 0
  | .condition => 0
  | .value =>
      (if e.isUnknown n then 0 else 1) +
        ((others (.literal .start .null)).analyze o).problems.length

namespace Protocol

variable {p : Protocol} {o : Options} {d : Decoder} {m : MessageDecl} {n : String} {e e' : Expr}

/-- A name that is not that of any field is unknown to the expressions of a message. -/
theorem Undeclared.lacks_fields (hn : p.Undeclared o n) {visible : List String}
    (hvisible : n ∉ visible) : (p.context o).Lacks (.fields visible) n := by
  rw [context_eq]
  refine hn.lacks (List.Subset.refl _) ?_
  exact Context.lookup_fields_of_not_mem hn.this hvisible

theorem Undeclared.not_mem_fields (hn : p.Undeclared o n) (hmakes : p.Makes o m d) :
    n ∉ (allFields p m).value.map (·.name) := by
  obtain ⟨line, hline, hdecls⟩ := exists_lineage_of_allFields hmakes.problems_allFields
  have hmem := (isActive_of_selectMessage hmakes.selected).mem
  intro hname
  rw [hdecls] at hname
  obtain ⟨f, hf, hname⟩ := List.mem_map.mp hname
  obtain ⟨x, hx, hfx⟩ := List.mem_flatMap.mp hf
  exact hn.field x (hline.mem_messages hmem x (List.mem_reverse.mp hx)) f hfx hname

/-- A misspelled condition is reported once. -/
theorem problems_misspelled_condition {front back : List RuleDecl} {r : RuleDecl}
    (hmakes : p.Makes o m d) (hn : p.Undeclared o n) (hrules : p.rules = some (front ++ r :: back))
    (h : r.condition.Misspells n e') :
    (({ p with rules := some (front ++ { r with condition := e' } :: back) } : Protocol).analyze
      o).problems.length = 1 := by
  have hfields := hmakes.fields
  simp only [Context.plan, Checked.problems_bind, List.append_eq_nil_iff, hrules, Option.getD_some]
    at hfields
  obtain ⟨hall, hrepeated, hplanned, hcleanRules, -⟩ := hfields
  have hcondition : ((p.context o).bind (.fields ((allFields p m).value.map (·.name)))
      r.condition).problems = [] := by
    rw [← Context.problems_rules_replaced hcleanRules r.condition]
    exact hcleanRules
  have honce := (hn.lacks_fields (hn.not_mem_fields hmakes)).reportedOnce_bind h hcondition
  let p' : Protocol := { p with rules := some (front ++ { r with condition := e' } :: back) }
  have hmessages : p'.messages = p.messages := rfl
  have hselected : (p'.selectMessage o).value = some m := hmakes.selected
  have hcontext : p'.context o = p.context o := rfl
  obtain ⟨hproblems, hvalue⟩ := allFields_congr hmessages m
  change (p'.analyze o).problems.length = 1
  have hnames : p'.checkNames.problems = [] := hmakes.names
  have henums : (EnumTable.ofProtocol o.builtins p').problems = [] := hmakes.enums
  rw [problems_analyze_of_clean hnames henums hselected, hcontext]
  simp only [Context.plan, Checked.problems_bind, hproblems, hvalue, hall, hrepeated, hplanned,
    List.nil_append, Checked.problems_pure, List.append_nil]
  rw [← honce.problems, ← Context.problems_rules_replaced hcleanRules e']
  rfl

theorem memberValue_misspelled {c : Context} {enum member : String} {own : Members}
    (hn : c.Lacks (.constants own) n) (h : e.Misspells n e')
    (hclean : (c.bind (.constants own) e).problems = []) :
    (c.memberValue enum own member e').value = .null ∧
      (c.memberValue enum own member e').problems.length =
        1 + (if e'.isUnknown n then 0 else 1) := by
  obtain ⟨hproblems, hconstant⟩ := hn.reportedOnce_bind h hclean
  unfold Context.memberValue
  rw [Checked.value_bind, Checked.problems_bind, hconstant]
  cases e'.isUnknown n with
  | true => exact ⟨rfl, by simp [hproblems]⟩
  | false => exact ⟨rfl, by simp [hproblems, Checked.reportAt, Checked.report]⟩

/-- A misspelled value is reported once, and again as one that is not constant unless all of it is
unknown.  Everything else is as it would be with `null` for a value. -/
theorem problems_misspelled_value {decl : EnumDecl} {front back : List EnumDecl} {member : String}
    {before after : List (String × Expr)} (hmakes : p.Makes o m d) (hn : p.Undeclared o n)
    (henums : p.enums = front ++ decl :: back)
    (hmembers : decl.members = before ++ (member, e) :: after) (h : e.Misspells n e') :
    let others : Expr → Protocol := fun e =>
      { p with enums := front ++ { decl with members := before ++ (member, e) :: after } :: back }
    ((others e').analyze o).problems.length = 1 + (if e'.isUnknown n then 0 else 1) +
      ((others (.literal .start .null)).analyze o).problems.length := by
  intro others
  let c := p.contextAfter o.builtins front
  let own := (c.membersFrom decl.name [] before).value
  have hclean : (c.membersFrom decl.name [] decl.members).problems = [] := by
    have hall := hmakes.enums
    rw [problems_enums henums] at hall
    simp only [List.append_eq_nil_iff] at hall
    exact hall.2.1
  rw [hmembers, Context.problems_membersFrom_append, List.append_eq_nil_iff] at hclean
  have hown : own.lookup member = none := Context.lookup_eq_none_of_problems hclean.2
  have hnew : member ∉ before.map (·.1) :=
    (Context.lookup_membersFrom_eq_none before member).mp hown
  have hvalue : (c.bind (.constants own) e).problems = [] := by
    have hrest := hclean.2
    rw [Context.membersFrom_cons_of_new hown, Checked.problems_bind, List.append_eq_nil_iff]
      at hrest
    rw [Context.bind_eq_of_memberValue hrest.1]
    rfl
  have hunknown : c.Lacks (.constants own) n := by
    have hfront : front ⊆ p.enums := by
      rw [henums]
      exact List.subset_append_left _ _
    refine hn.lacks hfront (Context.lookup_constants_of_eq_none ?_)
    have hdecl := hn.member decl (by simp [henums])
    rw [EnumDecl.Declares, hmembers, List.map_append, List.mem_append, not_or] at hdecl
    exact (Context.lookup_membersFrom_eq_none before n).mpr hdecl.1
  obtain ⟨xs, ys, hall⟩ :=
    exists_problems_value hmakes.names hmakes.selected henums after hnew .null
  obtain ⟨hnull, hlength⟩ := memberValue_misspelled hunknown h hvalue
  have hproblems : ((others e').analyze o).problems = _ := hall e' hnull
  have hproblems' : ((others (.literal .start .null)).analyze o).problems = xs ++ ([] ++ ys) :=
    hall (.literal .start .null) rfl
  rw [hproblems, hproblems']
  simp only [List.length_append, List.length_nil]
  change xs.length + ((c.memberValue decl.name own member e').problems.length + ys.length) = _
  rw [hlength]
  omega

/-- A misspelled argument of a modifier is reported once; a length that is all unknown is reported
once more. -/
theorem problems_misspelled_argument {target : MessageDecl} {line earlier later : List MessageDecl}
    {f : FieldDecl} {before after : List FieldDecl} {mod : Modifier} {front back : List Modifier}
    {first rest : List Expr} (hmakes : p.Makes o m d) (hn : p.Undeclared o n)
    (hline : p.Lineage m line) (htarget : target ∈ line)
    (hmessages : p.messages = earlier ++ target :: later)
    (hfields : target.fields = before ++ f :: after)
    (hmodifiers : f.modifiers = front ++ mod :: back)
    (hname : mod.name ∈ ["range", "length", "validate"])
    (harguments : mod.arguments = first ++ e :: rest) (h : e.Misspells n e') :
    let mod' : Modifier := { mod with arguments := first ++ e' :: rest }
    let f' : FieldDecl := { f with modifiers := front ++ mod' :: back }
    let target' : MessageDecl := { target with fields := before ++ f' :: after }
    (({ p with messages := earlier ++ target' :: later } : Protocol).analyze o).problems.length =
      1 + (if mod.name = "length" ∧ e'.isUnknown n then 1 else 0) := by
  intro mod' f' target'
  let p' : Protocol := { p with messages := earlier ++ target' :: later }
  obtain ⟨hnames, m', older, newer, hselected, hproblems', hvalue, hvalue'⟩ :=
    hmakes.exists_fields_replaced hline htarget hmessages (before ++ f' :: after)
  have hdecls : (allFields p m).value = (older ++ before) ++ f :: (after ++ newer) := by
    rw [hvalue, hfields]
    simp
  have hdecls' : (allFields p' m').value = (older ++ before) ++ f' :: (after ++ newer) := by
    refine hvalue'.trans ?_
    simp
  let s : FieldSite := ⟨f, (older ++ before).map (·.name), (after ++ newer).isEmpty⟩
  have hsite : (s.plan (p.context o)).problems = [] :=
    Context.problems_site_of_plan hmakes.fields hdecls
  have hsetting := FieldSite.problems_setting_of_plan hmodifiers hsite
  have hreads := FieldSite.reads_of_problems_setting hname hsetting
  have hunknown : (p.context o).Lacks (s.scopeOf mod.name) n := by
    have hnew := hn.not_mem_fields hmakes
    rw [hdecls, List.map_append, List.mem_append, List.map_cons, List.mem_cons, not_or, not_or]
      at hnew
    unfold FieldSite.scopeOf
    split
    · refine hn.lacks_fields ?_
      rw [List.mem_append, List.mem_singleton, not_or]
      exact ⟨hnew.1, hnew.2.1⟩
    · exact hn.lacks_fields hnew.1
  obtain ⟨hlength, hwidth⟩ := hreads.setting_misspelled hsetting harguments hunknown h
  have hplan : ((p.context o).plan p' m').problems = (s.setting (p.context o) mod').problems := by
    have hmod : mod'.name = mod.name := rfl
    rw [Context.problems_plan_replaced hmakes.fields hdecls hproblems' hdecls' rfl rfl]
    exact FieldSite.problems_plan_replaced (m := mod) hmodifiers hsite hmod hwidth
  have henums : (EnumTable.ofProtocol o.builtins p').problems = [] := hmakes.enums
  have hcontext : p'.context o = p.context o := rfl
  change (p'.analyze o).problems.length = _
  rw [problems_analyze_of_clean hnames henums hselected, hcontext, hplan, hlength]

/-- One misspelled name in a protocol that compiles makes compilation fail.  It is reported once,
and with it what comes of the `null` in its place. -/
theorem compile_misspelled {usage : Usage} {others : Expr → Protocol}
    (hcompiles : p.compile o = .ok d) (hn : p.Undeclared o n) (huses : p.Uses o usage e others)
    (h : e.Misspells n e') :
    ∃ ds, (others e').compile o = .error ds ∧
      ds.length = 1 + usage.consequences o n others e' := by
  obtain ⟨m, hmakes⟩ := exists_makes_of_compile hcompiles
  have hlength : ((others e').analyze o).problems.length =
      1 + usage.consequences o n others e' := by
    cases huses with
    | argument hselected hline htarget hmessages hfields hmodifiers hname harguments =>
        obtain rfl := Option.some.inj (hselected.symm.trans hmakes.selected)
        exact problems_misspelled_argument hmakes hn hline htarget hmessages hfields hmodifiers
          hname harguments h
    | condition hrules => exact problems_misspelled_condition hmakes hn hrules h
    | value henums hmembers =>
        rw [problems_misspelled_value hmakes hn henums hmembers h, Usage.consequences,
          Nat.add_assoc]
  have hproblems : ((others e').analyze o).problems ≠ [] := by
    intro hnil
    rw [hnil, List.length_nil] at hlength
    omega
  exact ⟨_, compile_eq_error hproblems, by rw [List.length_map, hlength]⟩

/-- The second member uses the first, and the third uses both. -/
def chained (value : Expr) : Protocol :=
  let members : List (String × Expr) :=
    [("A", number 1), ("B", value), ("C", .binary .mul (named "A") (named "B"))]
  { ofEnums [⟨"E", members, .start⟩] with messages := [⟨"M", none, [], .start⟩] }

/-- Of the misspelled name come a value that is not constant and a product with `null`. -/
theorem compile_misspelled_chained :
    ∃ ds, (chained (.binary .add (named "nope") (number 1))).compile {} = .error ds ∧
      ds.length = 3 := by
  let e : Expr := .binary .add (named "A") (number 1)
  let e' : Expr := .binary .add (named "nope") (number 1)
  have hisOk : ((chained e).compile {}).isOk := by decide +kernel
  obtain ⟨d, hcompiles⟩ : ∃ d, (chained e).compile {} = .ok d := by
    cases hcompile : (chained e).compile {} with
    | ok d => exact ⟨d, rfl⟩
    | error ds => rw [hcompile] at hisOk; cases hisOk
  have hn : (chained e).Undeclared {} "nope" :=
    ⟨by decide, by decide, by decide, rfl, by decide, by decide⟩
  have huses : (chained e).Uses {} .value e chained :=
    @Uses.value _ _ ⟨"E", _, .start⟩ [] [] "B" e [("A", number 1)]
      [("C", .binary .mul (named "A") (named "B"))] rfl rfl
  have hmisspells : e.Misspells "nope" e' := .left .name
  obtain ⟨ds, hcompile, hlength⟩ := compile_misspelled hcompiles hn huses hmisspells
  have hconsequences : Usage.consequences {} "nope" chained e' .value = 2 := by decide +kernel
  exact ⟨ds, hcompile, by rw [hlength, hconsequences]⟩

def lengthOf (length : Expr) : Modifier := ⟨"length", [length], .start⟩

def bytesOf (length : Expr) : FieldDecl := ⟨.bytes, "b", false, [lengthOf length], .start⟩

/-- Bytes of this length, and a number. -/
def messageOf (length : Expr) : MessageDecl :=
  ⟨"M", none, [bytesOf length, ⟨.int .u8, "v", false, [], .start⟩], .start⟩

def measuredBy (length : Expr) : Protocol :=
  { ofEnums [enumOf "E" [("N", 1)]] with messages := [messageOf length] }

/-- A length in which the only name is misspelled is reported twice. -/
theorem compile_misspelled_measuredBy :
    ((measuredBy (named "N")).compile {}).isOk ∧ (measuredBy (named "N")).Undeclared {} "nope" ∧
      (measuredBy (named "N")).Uses {} (.argument "length") (named "N") measuredBy ∧
      (named "N").Misspells "nope" (named "nope") ∧
      ∃ ds, (measuredBy (named "nope")).compile {} = .error ds ∧ ds.length = 2 := by
  have huses : (measuredBy (named "N")).Uses {} (.argument "length") (named "N") measuredBy :=
    @Uses.argument _ _ (messageOf (named "N")) (messageOf (named "N")) [messageOf (named "N")] [] []
      (bytesOf (named "N")) [] [_] (lengthOf (named "N")) [] [] (named "N") [] [] rfl (.root rfl)
      (List.mem_singleton.mpr rfl) rfl rfl rfl (by decide) rfl
  have hproblems : ((measuredBy (named "nope")).analyze {}).problems.length = 2 := by decide +kernel
  refine ⟨by decide +kernel, ⟨by decide, by decide, by decide, rfl, by decide, by decide⟩, huses,
    .name, _, compile_eq_error ?_, by rw [List.length_map, hproblems]⟩
  intro hnil
  rw [hnil] at hproblems
  cases hproblems

end Protocol

end WireSpec
