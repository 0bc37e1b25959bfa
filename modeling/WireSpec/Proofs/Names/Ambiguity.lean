import WireSpec.Proofs.Formula.Folding
import WireSpec.Proofs.Names.Problems
import WireSpec.Proofs.Names.Qualified
/-!
# Members of more than one enum

A name that is used as a value and that more than one enum has among its members is ambiguous,
unless something else of that name comes first.  In the expressions of messages all enums count; in
the value of an enum member only those that are known by then, which are the ones before its own.
-/

namespace WireSpec

mutual

/-- The names that are used as values in an expression.  A name directly in front of a point is not,
nor is that of a function. -/
def Expr.operands : Expr → List String
  | .literal _ _ => []
  | .name _ word => [word]
  | .unary _ _ e => e.operands
  | .binary _ l r => l.operands ++ r.operands
  | .member (.name _ _) _ => []
  | .member o _ => o.operands
  | .index o i => o.operands ++ i.operands
  | .slice o i j => o.operands ++ i.operands ++ j.operands
  | .call _ _ args => Expr.operandsAll args

def Expr.operandsAll : List Expr → List String
  | [] => []
  | e :: rest => e.operands ++ Expr.operandsAll rest

end

mutual

/-- Those of them that are looked up: nothing is in front of a point with an unknown member behind
it or among the arguments of a call that is wrong by itself. -/
def Expr.lookedUp (b : Builtins) : Expr → List String
  | .literal _ _ => []
  | .name _ word => [word]
  | .unary _ _ e => e.lookedUp b
  | .binary _ l r => l.lookedUp b ++ r.lookedUp b
  | .member (.name _ _) _ => []
  | .member o word => if word = "length" then o.lookedUp b else []
  | .index o i => o.lookedUp b ++ i.lookedUp b
  | .slice o i j => o.lookedUp b ++ i.lookedUp b ++ j.lookedUp b
  | .call _ function args =>
      if b.contains function ∧ args.length = 1 then Expr.lookedUpAll b args else []

def Expr.lookedUpAll (b : Builtins) : List Expr → List String
  | [] => []
  | e :: rest => e.lookedUp b ++ Expr.lookedUpAll b rest

end

section

variable {b : Builtins} {o : Expr}

theorem Expr.operands_member (ho : ∀ position name, o ≠ .name position name) (word : String) :
    (Expr.member o word).operands = o.operands := by
  cases o <;> first | rfl | exact absurd rfl (ho _ _)

theorem Expr.lookedUp_member (ho : ∀ position name, o ≠ .name position name) (word : String) :
    (Expr.member o word).lookedUp b = if word = "length" then o.lookedUp b else [] := by
  cases o <;> first | rfl | exact absurd rfl (ho _ _)

end

namespace Context

variable {c : Context} {scope : Scope} {position : Position}

theorem subset_problems_settleWith {settle : Position → Formula → Checked Formula}
    (f : Checked Formula) : f.problems ⊆ (settleWith settle position f).problems := by
  unfold settleWith
  split
  · rename_i hnone
    rw [List.isEmpty_iff.mp hnone]
    exact List.nil_subset _
  · exact List.Subset.refl _

theorem append_subset_append {first rest first' rest' : List String} (h : first ⊆ first')
    (h' : rest ⊆ rest') : first ++ rest ⊆ first' ++ rest' :=
  List.append_subset_of_subset_of_subset (List.subset_append_of_subset_left rest' h)
    (List.subset_append_of_subset_right first' h')

/-- An ambiguous name that is looked up is reported. -/
theorem exists_ambiguous_of_lookedUp {name enum₁ enum₂ : String}
    (hlookup : c.lookup scope name = .ambiguous enum₁ enum₂) (e : Expr)
    (h : name ∈ e.lookedUp c.builtins) :
    ∃ q, (some q, .ambiguousIdentifier name enum₁ enum₂) ∈ (c.bind scope e).problems := by
  -- What is reported of a part is reported of the whole.
  have hwhole {position : Position} {f : Checked Formula}
      (hpart : ∃ q, (some q, .ambiguousIdentifier name enum₁ enum₂) ∈ f.problems) :
      ∃ q, (some q, .ambiguousIdentifier name enum₁ enum₂) ∈
        (settleWith fold position f).problems := by
    obtain ⟨q, hq⟩ := hpart
    exact ⟨q, subset_problems_settleWith f hq⟩
  cases e with
  | literal => cases h
  | name position word =>
      obtain rfl := List.mem_singleton.mp h
      refine ⟨position, ?_⟩
      simp [bind, bindWith, bindName, hlookup, invalid, Checked.reportAt, Checked.report]
  | unary position op operand =>
      apply hwhole
      obtain ⟨q, hq⟩ := exists_ambiguous_of_lookedUp hlookup operand h
      exact ⟨q, List.mem_append_left _ hq⟩
  | binary op left right =>
      apply hwhole
      rcases List.mem_append.mp h with h | h
      · obtain ⟨q, hq⟩ := exists_ambiguous_of_lookedUp hlookup left h
        exact ⟨q, List.mem_append_left _ hq⟩
      · obtain ⟨q, hq⟩ := exists_ambiguous_of_lookedUp hlookup right h
        exact ⟨q, List.mem_append_right _ (List.mem_append_left _ hq)⟩
  | member object word =>
      by_cases hname : ∃ position name, object = .name position name
      · obtain ⟨_, _, rfl⟩ := hname
        cases h
      · have hobject : ∀ position name, object ≠ .name position name := by simpa using hname
        rw [Expr.lookedUp_member hobject] at h
        rw [bind, bindWith, qualifier?_eq_none hobject]
        split at h
        · rename_i hlength
          rw [if_pos hlength]
          apply hwhole
          obtain ⟨q, hq⟩ := exists_ambiguous_of_lookedUp hlookup object h
          exact ⟨q, List.mem_append_left _ hq⟩
        · cases h
  | index object index =>
      apply hwhole
      rcases List.mem_append.mp h with h | h
      · obtain ⟨q, hq⟩ := exists_ambiguous_of_lookedUp hlookup object h
        exact ⟨q, List.mem_append_left _ hq⟩
      · obtain ⟨q, hq⟩ := exists_ambiguous_of_lookedUp hlookup index h
        exact ⟨q, List.mem_append_right _ (List.mem_append_left _ hq)⟩
  | slice object start stop =>
      apply hwhole
      rcases List.mem_append.mp h with h | h
      · rcases List.mem_append.mp h with h | h
        · obtain ⟨q, hq⟩ := exists_ambiguous_of_lookedUp hlookup object h
          exact ⟨q, List.mem_append_left _ hq⟩
        · obtain ⟨q, hq⟩ := exists_ambiguous_of_lookedUp hlookup start h
          exact ⟨q, List.mem_append_right _ (List.mem_append_left _ hq)⟩
      · obtain ⟨q, hq⟩ := exists_ambiguous_of_lookedUp hlookup stop h
        exact ⟨q, List.mem_append_right _ (List.mem_append_right _ (List.mem_append_left _ hq))⟩
  | call position function arguments =>
      rw [Expr.lookedUp] at h
      split at h
      · rename_i hcall
        obtain ⟨hcontains, hone⟩ := hcall
        obtain ⟨argument, rfl⟩ := List.length_eq_one_iff.mp hone
        obtain ⟨f, hf⟩ := Option.isSome_iff_exists.mp hcontains
        rw [bind, bindWith, hf]
        apply hwhole
        obtain ⟨q, hq⟩ := exists_ambiguous_of_lookedUp hlookup argument
          (by simpa [Expr.lookedUpAll] using h)
        exact ⟨q, List.mem_append_left _ hq⟩
      · cases h

/-- In an expression without a problem, everything is looked up. -/
theorem operands_subset_lookedUp (e : Expr) (h : (c.bind scope e).problems = []) :
    e.operands ⊆ e.lookedUp c.builtins := by
  have hparts {position : Position} {f : Checked Formula}
      (hwhole : (settleWith fold position f).problems = []) : f.problems = [] :=
    List.subset_nil.mp (hwhole ▸ subset_problems_settleWith f)
  cases e with
  | literal => exact List.nil_subset _
  | name => exact List.Subset.refl _
  | unary position op operand =>
      have hclean := hparts h
      simp only [Checked.problems_bind, List.append_eq_nil_iff] at hclean
      exact operands_subset_lookedUp operand hclean.1
  | binary op left right =>
      have hclean := hparts h
      simp only [Checked.problems_bind, List.append_eq_nil_iff] at hclean
      exact append_subset_append (operands_subset_lookedUp left hclean.1)
        (operands_subset_lookedUp right hclean.2.1)
  | member object word =>
      by_cases hname : ∃ position name, object = .name position name
      · obtain ⟨_, _, rfl⟩ := hname
        exact List.nil_subset _
      · have hobject : ∀ position name, object ≠ .name position name := by simpa using hname
        rw [Expr.operands_member hobject, Expr.lookedUp_member hobject]
        rw [bind, bindWith, qualifier?_eq_none hobject] at h
        by_cases hlength : word = "length"
        · rw [if_pos hlength]
          simp only [if_pos hlength] at h
          have hclean := hparts h
          simp only [Checked.problems_bind, List.append_eq_nil_iff] at hclean
          exact operands_subset_lookedUp object hclean.1
        · simp only [if_neg hlength] at h
          cases h
  | index object index =>
      have hclean := hparts h
      simp only [Checked.problems_bind, List.append_eq_nil_iff] at hclean
      exact append_subset_append (operands_subset_lookedUp object hclean.1)
        (operands_subset_lookedUp index hclean.2.1)
  | slice object start stop =>
      have hclean := hparts h
      simp only [Checked.problems_bind, List.append_eq_nil_iff] at hclean
      exact append_subset_append
        (append_subset_append (operands_subset_lookedUp object hclean.1)
          (operands_subset_lookedUp start hclean.2.1))
        (operands_subset_lookedUp stop hclean.2.2.1)
  | call position function arguments =>
      rw [bind, bindWith] at h
      split at h
      · cases h
      · rename_i f hf
        split at h
        · rename_i argument
          have hclean := hparts h
          simp only [Checked.problems_bind, List.append_eq_nil_iff] at hclean
          have hcall : c.builtins.contains function = true ∧ [argument].length = 1 :=
            ⟨by rw [Builtins.contains, hf]; rfl, rfl⟩
          rw [Expr.operands, Expr.lookedUp, if_pos hcall]
          simpa [Expr.operandsAll, Expr.lookedUpAll] using
            operands_subset_lookedUp argument hclean.1
        · cases h

end Context

/-! ### Expressions of a protocol -/

/-- An expression where it stands in a protocol. -/
structure ExprSite where
  expr : Expr
  /-- The enums whose members it can use. -/
  known : List EnumDecl
  /-- The names that mean something else there. -/
  taken : List String
  /-- Nothing around the expression keeps it from being read. -/
  IsRead : Prop

namespace Protocol

/-- The names of all fields of the message that is compiled. -/
def fieldNames (p : Protocol) (o : Options) : List String :=
  ((p.selectMessage o).value.map fun m => (allFields p m).value.map (·.name)).getD []

/-- The expressions in the fields of the compiled message, those of conditions, and the values of
enum members. -/
inductive HasSite (p : Protocol) (o : Options) : ExprSite → Prop where
  /-- Only the first modifier of a name is read, if it has as many arguments as it should, and a
  length only where the type has none. -/
  | modifier {m : MessageDecl} {i : Nat} {f : FieldDecl} {front back : List Modifier}
      {mod : Modifier} {e : Expr} (hselected : (p.selectMessage o).value = some m)
      (hfield : (allFields p m).value[i]? = some f)
      (hmodifiers : f.modifiers = front ++ mod :: back)
      (hname : mod.name ∈ ["range", "length", "validate"]) (he : e ∈ mod.arguments) :
      p.HasSite o {
        expr := e
        known := p.enums
        taken := "this" :: (p.fieldNames o).take (if mod.name = "validate" then i + 1 else i)
        IsRead := mod.name ∉ front.map (·.name) ∧
          mod.arguments.length = (if mod.name = "range" then 2 else 1) ∧
          (mod.name = "length" → f.type.fixedWidth = none) }
  /-- Conditions are read where there is a message to compile. -/
  | condition {r : RuleDecl} (hrule : r ∈ p.rules.getD []) :
      p.HasSite o {
        expr := r.condition
        known := p.enums
        taken := "this" :: p.fieldNames o
        IsRead := (p.selectMessage o).value.isSome }
  /-- A value can use the members before it and the enums before its own.  That of a repeated member
  is not read. -/
  | value {front back : List EnumDecl} {decl : EnumDecl} {before after : List (String × Expr)}
      {member : String} {e : Expr} (henums : p.enums = front ++ decl :: back)
      (hmembers : decl.members = before ++ (member, e) :: after) :
      p.HasSite o {
        expr := e
        known := front
        taken := before.map (·.1)
        IsRead := member ∉ before.map (·.1) }

end Protocol

namespace FieldSite

variable {c : Context} {decls : List FieldDecl} {i : Nat} {hi : i < decls.length}

theorem scopeOf_among (modifier : String) :
    (among decls i hi).scopeOf modifier =
      .fields ((decls.map (·.name)).take (if modifier = "validate" then i + 1 else i)) := by
  unfold scopeOf
  split
  · simp [ownScope, among, FieldSite.name, List.take_succ_eq_append_getElem, hi]
  · simp [scope, among]

end FieldSite

namespace Protocol

variable {p : Protocol} {o : Options} {m : MessageDecl} {s : ExprSite}

theorem subset_problems_enums :
    (EnumTable.ofProtocol o.builtins p).problems ⊆ (p.analyze o).problems := by
  simp only [analyze, Checked.problems_bind]
  exact List.subset_append_of_subset_right _ (List.subset_append_left _ _)

theorem subset_problems_plan (h : (p.selectMessage o).value = some m) :
    ((p.context o).plan p m).problems ⊆ (p.analyze o).problems := by
  rw [problems_analyze h, ← List.append_assoc, ← List.append_assoc]
  exact List.subset_append_right _ _

theorem subset_problems_site (h : (p.selectMessage o).value = some m) {i : Nat}
    (hi : i < (allFields p m).value.length) :
    ((FieldSite.among _ i hi).plan (p.context o)).problems ⊆ (p.analyze o).problems := by
  refine List.Subset.trans ?_ (subset_problems_plan h)
  have hsite := List.mem_of_getElem? (Context.getElem?_sitesFrom [] (allFields p m).value i hi)
  rw [List.nil_append] at hsite
  simp only [Context.plan, Checked.problems_bind, Context.problems_planFields]
  refine List.subset_append_of_subset_right _ (List.subset_append_of_subset_right _
    (List.subset_append_of_subset_left _ ?_))
  exact fun x hx => List.mem_flatMap.mpr ⟨_, hsite, hx⟩

theorem fieldNames_eq (h : (p.selectMessage o).value = some m) :
    p.fieldNames o = (allFields p m).value.map (·.name) := by
  rw [fieldNames, h]
  rfl

/-- An expression that is read is bound in a scope in which nothing else has the names of members
but those that are taken. -/
theorem HasSite.exists_bind_subset (h : p.HasSite o s) (hread : s.IsRead) :
    ∃ scope, (∀ name, name ∉ s.taken → (p.contextAfter o.builtins s.known).lookup scope name =
        (p.contextAfter o.builtins s.known).lookupMember name) ∧
      ((p.contextAfter o.builtins s.known).bind scope s.expr).problems ⊆
        (p.analyze o).problems := by
  cases h with
  | @modifier m i f front back mod e hselected hfield hmodifiers hname he =>
      obtain ⟨hi, rfl⟩ := List.getElem?_eq_some_iff.mp hfield
      obtain ⟨hfirst, harity, htype⟩ := hread
      have hreads : (FieldSite.among _ i hi).Reads mod := ⟨hname, harity, htype⟩
      refine ⟨(FieldSite.among _ i hi).scopeOf mod.name, ?_, ?_⟩
      · intro name htaken
        rw [List.mem_cons, not_or, fieldNames_eq hselected] at htaken
        rw [FieldSite.scopeOf_among]
        exact Context.lookup_fields_of_not_mem htaken.1 htaken.2
      · refine List.Subset.trans (hreads.subset_problems_setting he) ?_
        refine List.Subset.trans ?_ (subset_problems_site hselected hi)
        obtain ⟨seen, hsettings⟩ := FieldSite.exists_settings_append (c := p.context o)
          (s := FieldSite.among _ i hi) (List.not_mem_nil) hfirst back
        rw [FieldSite.problems_plan]
        refine List.subset_append_of_subset_left _ ?_
        have hdecl : (FieldSite.among _ i hi).decl.modifiers = front ++ mod :: back := hmodifiers
        rw [hdecl, (hsettings mod rfl).1]
        exact List.subset_append_of_subset_right _ (List.subset_append_left _ _)
  | @condition r hrule =>
      obtain ⟨m, hselected⟩ := Option.isSome_iff_exists.mp hread
      refine ⟨.fields (p.fieldNames o), ?_, ?_⟩
      · intro name htaken
        rw [List.mem_cons, not_or] at htaken
        exact Context.lookup_fields_of_not_mem htaken.1 htaken.2
      · refine List.Subset.trans ?_ (subset_problems_plan hselected)
        rw [fieldNames_eq hselected]
        simp only [Context.plan, Checked.problems_bind, Context.problems_rules]
        intro x hx
        have hrules : x ∈ ((p.context o).rule ((allFields p m).value.map (·.name)) r).problems :=
          List.mem_append_left _ hx
        simp only [List.mem_append, List.mem_flatMap]
        exact Or.inr (Or.inr (Or.inr (Or.inl ⟨r, hrule, hrules⟩)))
  | @value front back decl before after member e henums hmembers =>
      let c := p.contextAfter o.builtins front
      have hown : (c.membersFrom decl.name [] before).value.lookup member = none :=
        (Context.lookup_membersFrom_eq_none before member).mpr hread
      refine ⟨.constants (c.membersFrom decl.name [] before).value, ?_, ?_⟩
      · intro name htaken
        apply Context.lookup_constants_of_eq_none
        exact (Context.lookup_membersFrom_eq_none before name).mpr htaken
      · refine List.Subset.trans ?_ subset_problems_enums
        rw [problems_enums henums, hmembers, Context.problems_membersFrom_append,
          Context.membersFrom_cons_of_new hown]
        intro x hx
        have hvalue : x ∈ (c.memberValue decl.name
            (c.membersFrom decl.name [] before).value member e).problems :=
          List.mem_append_left _ hx
        simp only [Checked.problems_bind, List.mem_append]
        exact Or.inr (Or.inl (Or.inr (Or.inl hvalue)))

/-- Of a protocol without a problem, every expression is read. -/
theorem HasSite.isRead (h : p.HasSite o s) (hclean : (p.analyze o).problems = []) : s.IsRead := by
  cases h with
  | @modifier m i f front back mod e hselected hfield hmodifiers hname he =>
      obtain ⟨hi, rfl⟩ := List.getElem?_eq_some_iff.mp hfield
      have hsite : ((FieldSite.among _ i hi).plan (p.context o)).problems = [] :=
        List.subset_nil.mp (hclean ▸ subset_problems_site hselected hi)
      have hdecl : (FieldSite.among _ i hi).decl.modifiers = front ++ mod :: back := hmodifiers
      rw [FieldSite.problems_plan, List.append_eq_nil_iff, hdecl] at hsite
      have hfirst := (FieldSite.not_mem_of_problems_settings hsite.1).2
      obtain ⟨seen, hsettings⟩ := FieldSite.exists_settings_append (c := p.context o)
        (s := FieldSite.among _ i hi) List.not_mem_nil hfirst back
      rw [(hsettings mod rfl).1] at hsite
      simp only [List.append_eq_nil_iff] at hsite
      have hreads := FieldSite.reads_of_problems_setting hname hsite.1.2.1
      exact ⟨hfirst, hreads.arity, hreads.type⟩
  | @condition r hrule =>
      have hselected : (p.selectMessage o).problems = [] := by
        simp only [analyze, Checked.problems_bind, List.append_eq_nil_iff] at hclean
        exact hclean.2.2.1
      exact problems_selectMessage.mp hselected
  | @value front back decl before after member e henums hmembers =>
      have henumsClean := List.subset_nil.mp (hclean ▸ subset_problems_enums)
      rw [problems_enums henums, hmembers, Context.problems_membersFrom_append] at henumsClean
      simp only [List.append_eq_nil_iff] at henumsClean
      have hown := Context.lookup_eq_none_of_problems henumsClean.2.1.2
      exact (Context.lookup_membersFrom_eq_none before member).mp hown

theorem HasSite.exists_enums_eq (h : p.HasSite o s) : ∃ rest, p.enums = s.known ++ rest := by
  cases h with
  | modifier | condition => exact ⟨[], (List.append_nil _).symm⟩
  | value henums => exact ⟨_, henums⟩

/-- A name that more than one of the enums there have among their members is an error, unless it
means something else.  Where it is looked up and no two enums have one name, the first two of these
enums are reported. -/
theorem compile_ambiguous (h : p.HasSite o s) {name : String} (hname : name ∈ s.expr.operands)
    (htaken : name ∉ s.taken) (hdeclared : 2 ≤ (s.known.filter (·.Declares name)).length) :
    ∃ ds, p.compile o = .error ds ∧
      (s.IsRead → name ∈ s.expr.lookedUp o.builtins → (p.enums.map (·.name)).Nodup →
        ∃ first second rest, s.known.filter (·.Declares name) = first :: second :: rest ∧
          ∃ d ∈ ds, d.problem = .semantic (.ambiguousIdentifier name first.name second.name)) := by
  obtain ⟨first, second, rest, hfirst⟩ :
      ∃ first second rest, s.known.filter (·.Declares name) = first :: second :: rest := by
    match hlist : s.known.filter (·.Declares name) with
    | [] | [_] => simp [hlist] at hdeclared
    | first :: second :: rest => exact ⟨first, second, rest, hlist⟩
  -- Where the name is looked up, its problem is one of the protocol.
  have hreported (hread : s.IsRead) (hlooked : name ∈ s.expr.lookedUp o.builtins)
      (hnames : (p.enums.map (·.name)).Nodup) :
      ∃ q, (some q, .ambiguousIdentifier name first.name second.name) ∈ (p.analyze o).problems := by
    have hmember : (p.contextAfter o.builtins s.known).lookupMember name =
        .ambiguous first.name second.name := by
      obtain ⟨others, henums⟩ := h.exists_enums_eq
      apply Context.lookupMember_of_owners
      rw [contextAfter, names_owners (knows_tableAfter _ _) (declared_tableAfter _ _),
        owners_of_nodup hnames henums, hfirst]
      rfl
    obtain ⟨scope, hscope, hsubset⟩ := h.exists_bind_subset hread
    obtain ⟨q, hq⟩ := Context.exists_ambiguous_of_lookedUp ((hscope name htaken).trans hmember)
      s.expr hlooked
    exact ⟨q, hsubset hq⟩
  have hproblems : (p.analyze o).problems ≠ [] := by
    intro hclean
    have hnames : (p.enums.map (·.name)).Nodup := by
      simp only [analyze, Checked.problems_bind, List.append_eq_nil_iff] at hclean
      exact (problems_checkNames.mp hclean.1).1
    obtain ⟨scope, _, hsubset⟩ := h.exists_bind_subset (h.isRead hclean)
    have hbind := List.subset_nil.mp (hclean ▸ hsubset)
    have hlooked := Context.operands_subset_lookedUp s.expr hbind hname
    obtain ⟨q, hq⟩ := hreported (h.isRead hclean) hlooked hnames
    rw [hclean] at hq
    cases hq
  refine ⟨_, compile_eq_error hproblems, fun hread hlooked hnames => ?_⟩
  obtain ⟨q, hq⟩ := hreported hread hlooked hnames
  exact ⟨first, second, rest, hfirst, _, List.mem_map_of_mem hq, rfl⟩

def byteWith (modifiers : List Modifier) : MessageDecl where
  name := "M"
  base := none
  fields := [⟨.int .u8, "v", false, modifiers, .start⟩]
  position := .start

/-- These enums, and a message with one byte that is modified so. -/
def ofByte (enums : List EnumDecl) (modifiers : List Modifier) : Protocol :=
  { ofEnums enums with messages := [byteWith modifiers] }

theorem allFields_ofByte (enums : List EnumDecl) (modifiers : List Modifier) :
    (allFields (ofByte enums modifiers) (byteWith modifiers)).value =
      (byteWith modifiers).fields := by
  rw [allFields, basesFrom]
  rfl

theorem fieldNames_ofByte (enums : List EnumDecl) (modifiers : List Modifier) :
    (ofByte enums modifiers).fieldNames {} = ["v"] := by
  rw [fieldNames_eq rfl, allFields_ofByte]
  rfl

/-- An argument of one of its modifiers, behind others. -/
def argumentSite (enums : List EnumDecl) (front : List Modifier) (mod : Modifier) (e : Expr) :
    ExprSite where
  expr := e
  known := enums
  taken := "this" :: ["v"].take (if mod.name = "validate" then 1 else 0)
  IsRead := mod.name ∉ front.map (·.name) ∧
    mod.arguments.length = (if mod.name = "range" then 2 else 1) ∧
    (mod.name = "length" → (ScalarType.int .u8).fixedWidth = none)

theorem hasSite_ofByte (enums : List EnumDecl) (front back : List Modifier) {mod : Modifier}
    {e : Expr} (hname : mod.name ∈ ["range", "length", "validate"]) (he : e ∈ mod.arguments) :
    (ofByte enums (front ++ mod :: back)).HasSite {} (argumentSite enums front mod e) := by
  have hfield : (allFields (ofByte enums (front ++ mod :: back))
      (byteWith (front ++ mod :: back))).value[0]? =
        some ⟨.int .u8, "v", false, front ++ mod :: back, .start⟩ := by
    rw [allFields_ofByte]
    rfl
  have hsite := HasSite.modifier (o := {}) rfl hfield rfl hname he
  rwa [fieldNames_ofByte] at hsite

def rangeOf (least greatest : Expr) : Modifier := ⟨"range", [least, greatest], .start⟩

/-- Two enums with a member of this name. -/
def rivals (name : String) : List EnumDecl := [enumOf "A" [(name, 1)], enumOf "B" [(name, 2)]]

/-- A range up to a member of two enums. -/
def clashing : Protocol := .ofByte (rivals "X") [rangeOf (number 0) (named "X")]

theorem compile_ambiguous_clashing :
    ∃ s, clashing.HasSite {} s ∧ "X" ∈ s.expr.operands ∧ "X" ∉ s.taken ∧
      2 ≤ (s.known.filter (·.Declares "X")).length ∧
      ∃ ds, clashing.compile {} = .error ds ∧
        ∃ d ∈ ds, d.problem = .semantic (.ambiguousIdentifier "X" "A" "B") := by
  have hsite : clashing.HasSite {}
      (argumentSite (rivals "X") [] (rangeOf (number 0) (named "X")) (named "X")) :=
    hasSite_ofByte (rivals "X") [] [] (by decide) (by simp [rangeOf])
  have hname : "X" ∈ (named "X").operands := by decide
  have hdeclared : 2 ≤ ((rivals "X").filter (·.Declares "X")).length := by decide
  obtain ⟨ds, hcompile, hreported⟩ := compile_ambiguous hsite hname (by decide) hdeclared
  obtain ⟨first, second, rest, hfirst, d, hd, hproblem⟩ := hreported
    ⟨by decide, by decide, by decide⟩ (by decide) (by decide)
  have hrivals : [enumOf "A" [("X", 1)], enumOf "B" [("X", 2)]] = first :: second :: rest := hfirst
  cases hrivals
  exact ⟨_, hsite, hname, by decide, hdeclared, ds, hcompile, d, hd, hproblem⟩

/-- One enum with the member comes behind that whose value uses it. -/
def enumBehind : Protocol :=
  .ofByte [enumOf "A" [("X", 1)], ⟨"B", [("Y", named "X")], .start⟩, enumOf "C" [("X", 2)]] []

/-- The members have the name of the whole input. -/
def membersThis : Protocol := .ofByte (rivals "this") [⟨"validate", [named "this"], .start⟩]

/-- The member is in a range behind another one. -/
def repeatedRange : Protocol :=
  .ofByte (rivals "X")
    [rangeOf (number 0) (number 9), rangeOf (number 0) (named "X")]

/-- The member is in front of a point with an unknown member behind it. -/
def unknownMember : Protocol :=
  .ofByte (rivals "X") [rangeOf (number 0) (.member (.unary .start .negate (named "X")) "size")]

/-- The first of two enums of one name, which counts, does not have the member. -/
def repeatedEnum : Protocol :=
  .ofByte [enumOf "A" [("Y", 1)], enumOf "A" [("X", 2)], enumOf "B" [("X", 3)]]
    [rangeOf (number 0) (named "X")]

theorem compile_eq_error_of_problems {p : Protocol} {o : Options} {q : Position} {e : SemanticError}
    (h : (p.analyze o).problems = [(some q, e)]) :
    p.compile o = .error [⟨some q, .semantic e⟩] := by
  rw [compile_eq_error (by simp [h]), h]
  rfl

/-- Two enums have the member, and no field that is visible and no member before has its name.
Still, the first two of these protocols are compiled, and of the others something else is
reported. -/
theorem not_compile_ambiguous :
    (∃ s, enumBehind.HasSite {} s ∧ "X" ∈ s.expr.operands ∧ "X" ∉ s.taken ∧
      (enumBehind.enums.filter (·.Declares "X")).length = 2 ∧ (enumBehind.compile {}).isOk) ∧
    (∃ s, membersThis.HasSite {} s ∧ "this" ∈ s.expr.operands ∧
      "this" ∉ membersThis.fieldNames {} ∧
      (membersThis.enums.filter (·.Declares "this")).length = 2 ∧ (membersThis.compile {}).isOk) ∧
    (∃ s, repeatedRange.HasSite {} s ∧ "X" ∈ s.expr.operands ∧ "X" ∉ s.taken ∧
      (repeatedRange.enums.filter (·.Declares "X")).length = 2 ∧
      repeatedRange.compile {} =
        .error [⟨some .start, .semantic (.duplicateModifier "range" "v")⟩]) ∧
    (∃ s, unknownMember.HasSite {} s ∧ "X" ∈ s.expr.operands ∧ "X" ∉ s.taken ∧
      (unknownMember.enums.filter (·.Declares "X")).length = 2 ∧
      unknownMember.compile {} = .error [⟨some .start, .semantic (.unknownMember "size")⟩]) ∧
    (∃ s, repeatedEnum.HasSite {} s ∧ "X" ∈ s.expr.operands ∧ "X" ∉ s.taken ∧
      (repeatedEnum.enums.filter (·.Declares "X")).length = 2 ∧
      repeatedEnum.compile {} = .error [⟨some .start, .semantic (.duplicateEnum "A")⟩]) := by
  refine ⟨?_, ?_, ?_, ?_, ?_⟩
  · have hsite := HasSite.value (p := enumBehind) (o := {}) (e := named "X")
      (show enumBehind.enums = [enumOf "A" [("X", 1)]] ++ _ :: [enumOf "C" [("X", 2)]] from rfl)
      (show [("Y", named "X")] = [] ++ ("Y", named "X") :: [] from rfl)
    exact ⟨_, hsite, by decide, by decide, by decide, by decide +kernel⟩
  · have hsite : membersThis.HasSite {}
        (argumentSite (rivals "this") [] ⟨"validate", [named "this"], .start⟩ (named "this")) :=
      hasSite_ofByte (rivals "this") [] [] (by decide) (by simp)
    have hvisible : "this" ∉ membersThis.fieldNames {} := by
      rw [membersThis, fieldNames_ofByte]
      decide
    exact ⟨_, hsite, by decide, hvisible, by decide, by decide +kernel⟩
  · have hsite : repeatedRange.HasSite {} (argumentSite (rivals "X")
        [rangeOf (number 0) (number 9)] (rangeOf (number 0) (named "X")) (named "X")) :=
      hasSite_ofByte (rivals "X") [rangeOf (number 0) (number 9)] [] (by decide) (by simp [rangeOf])
    exact ⟨_, hsite, by decide, by decide, by decide,
      compile_eq_error_of_problems (by decide +kernel)⟩
  · have hsite : unknownMember.HasSite {} (argumentSite (rivals "X") []
        (rangeOf (number 0) (.member (.unary .start .negate (named "X")) "size"))
        (.member (.unary .start .negate (named "X")) "size")) :=
      hasSite_ofByte (rivals "X") [] [] (by decide) (by simp [rangeOf])
    exact ⟨_, hsite, by decide, by decide, by decide,
      compile_eq_error_of_problems (by decide +kernel)⟩
  · have hsite : repeatedEnum.HasSite {} (argumentSite repeatedEnum.enums []
        (rangeOf (number 0) (named "X")) (named "X")) :=
      hasSite_ofByte repeatedEnum.enums [] [] (by decide) (by simp [rangeOf])
    exact ⟨_, hsite, by decide, by decide, by decide,
      compile_eq_error_of_problems (by decide +kernel)⟩

end Protocol

end WireSpec
