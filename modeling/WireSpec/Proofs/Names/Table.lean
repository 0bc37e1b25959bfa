import Mathlib
import WireSpec.Proofs.Plan.Lineage
/-!
# What is known of enums

Enums are evaluated one after another, and so are the members of each.  After some of them, the
table knows these with the names of their members; of two enums with one name, the first counts.  A
name without an enum in front of it stands for a member if just one enum owns such a member.
-/

namespace WireSpec

/-- An enum has a member of this name. -/
def EnumDecl.Declares (decl : EnumDecl) (member : String) : Prop :=
  member ∈ decl.members.map (·.1)

instance (decl : EnumDecl) (member : String) : Decidable (decl.Declares member) :=
  inferInstanceAs (Decidable (member ∈ decl.members.map (·.1)))

namespace Context

variable {c : Context} {enum : String}

/-! ### Members -/

theorem value_membersFrom_append (own : Members) (first rest : List (String × Expr)) :
    (c.membersFrom enum own (first ++ rest)).value =
      (c.membersFrom enum (c.membersFrom enum own first).value rest).value := by
  fun_induction membersFrom c enum own first with
  | case1 own => rfl
  | case2 own member value first hmember ih =>
      simp only [List.cons_append, membersFrom, hmember, if_true, Checked.value_bind, ih]
  | case3 own member value first hmember ih =>
      simp only [List.cons_append, membersFrom, hmember, Bool.false_eq_true, if_false,
        Checked.value_bind, ih]

theorem problems_membersFrom_append (own : Members) (first rest : List (String × Expr)) :
    (c.membersFrom enum own (first ++ rest)).problems =
      (c.membersFrom enum own first).problems ++
        (c.membersFrom enum (c.membersFrom enum own first).value rest).problems := by
  fun_induction membersFrom c enum own first with
  | case1 own => rfl
  | case2 own member value first hmember ih =>
      simp only [List.cons_append, membersFrom, hmember, if_true, Checked.problems_bind,
        Checked.value_bind, ih, List.append_assoc]
  | case3 own member value first hmember ih =>
      simp only [List.cons_append, membersFrom, hmember, Bool.false_eq_true, if_false,
        Checked.problems_bind, Checked.value_bind, ih, List.append_assoc]

theorem membersFrom_cons_of_new {own : Members} {member : String} (h : own.lookup member = none)
    (value : Expr) (rest : List (String × Expr)) :
    c.membersFrom enum own ((member, value) :: rest) =
      (c.memberValue enum own member value >>= fun v =>
        c.membersFrom enum (own ++ [(member, v)]) rest) := by
  simp [membersFrom, h]

/-- Of members without a problem, none is repeated. -/
theorem lookup_eq_none_of_problems {own : Members} {member : String} {value : Expr}
    {rest : List (String × Expr)}
    (h : (c.membersFrom enum own ((member, value) :: rest)).problems = []) :
    own.lookup member = none := by
  cases hown : own.lookup member with
  | none => rfl
  | some v => simp [membersFrom, hown, Checked.reportAt, Checked.report] at h

/-- The members that are known in the end are those known before and those of the enum. -/
theorem isSome_lookup_membersFrom (own : Members) (members : List (String × Expr)) (x : String) :
    ((c.membersFrom enum own members).value.lookup x).isSome ↔
      (own.lookup x).isSome ∨ x ∈ members.map (·.1) := by
  fun_induction membersFrom c enum own members with
  | case1 own => simp
  | case2 own member value rest hmember ih =>
      rw [Checked.value_bind, ih, List.map_cons, List.mem_cons]
      constructor
      · rintro (h | h)
        · exact Or.inl h
        · exact Or.inr (Or.inr h)
      · rintro (h | rfl | h)
        · exact Or.inl h
        · exact Or.inl hmember
        · exact Or.inr h
  | case3 own member value rest hmember ih =>
      rw [Checked.value_bind, ih, List.map_cons, List.mem_cons, List.lookup_append]
      by_cases hx : x = member
      · simp [hx]
      · have hlookup :
            List.lookup x [(member, (c.memberValue enum own member value).value)] = none := by
          simp [hx]
        rw [hlookup, Option.or_none]
        simp [hx]

theorem lookup_membersFrom_eq_none (members : List (String × Expr)) (x : String) :
    (c.membersFrom enum [] members).value.lookup x = none ↔ x ∉ members.map (·.1) := by
  rw [← Option.not_isSome_iff_eq_none, isSome_lookup_membersFrom]
  simp

theorem lookup_membersFrom {own : Members} {x : String} {v : Operand} (h : own.lookup x = some v)
    (members : List (String × Expr)) :
    (c.membersFrom enum own members).value.lookup x = some v := by
  fun_induction membersFrom c enum own members with
  | case1 own => exact h
  | case2 own member value rest hmember ih => exact ih h
  | case3 own member value rest hmember ih =>
      apply ih
      rw [List.lookup_append, h, Option.some_or]

end Context

namespace EnumTable

variable {b : Builtins} {t : EnumTable}

/-! ### Enums -/

theorem value_extend_append (first rest : List EnumDecl) :
    (extend b t (first ++ rest)).value = (extend b (extend b t first).value rest).value := by
  fun_induction extend b t first with
  | case1 t => rfl
  | case2 t decl first ih =>
    simp only [List.cons_append, extend, Checked.value_bind, ih]

theorem problems_extend_append (first rest : List EnumDecl) :
    (extend b t (first ++ rest)).problems =
      (extend b t first).problems ++ (extend b (extend b t first).value rest).problems := by
  fun_induction extend b t first with
  | case1 t => rfl
  | case2 t decl first ih =>
    simp only [List.cons_append, extend, Checked.problems_bind, Checked.value_bind, ih,
      List.append_assoc]

theorem declared_extend (decls : List EnumDecl) :
    (extend b t decls).value.declared = t.declared := by
  fun_induction extend b t decls with
  | case1 t => rfl
  | case2 t decl rest ih => exact ih _

/-- These enums are known, each with its members. -/
def Knows (t : EnumTable) (decls : List EnumDecl) : Prop :=
  List.Forall₂
    (fun known decl => known.1 = decl.name ∧
      ∀ x, (List.lookup x known.2).isSome ↔ decl.Declares x) t.known decls

theorem knows_nil (declared : List String) : Knows ⟨declared, []⟩ [] := List.Forall₂.nil

theorem knows_extend {done : List EnumDecl} (h : t.Knows done) (decls : List EnumDecl) :
    (extend b t decls).value.Knows (done ++ decls) := by
  fun_induction extend b t decls generalizing done with
  | case1 t => simpa using h
  | case2 t decl rest ih =>
      have hknown : Knows
          { t with known := t.known ++
              [(decl.name, (Context.membersFrom ⟨b, t⟩ decl.name [] decl.members).value)] }
          (done ++ [decl]) := by
        refine List.rel_append h (List.Forall₂.cons ⟨rfl, fun x => ?_⟩ .nil)
        simp only [Context.isSome_lookup_membersFrom, EnumDecl.Declares]
        simp
      have hrest := ih _ hknown
      rwa [List.append_assoc] at hrest

theorem Knows.names_eq {decls : List EnumDecl} (h : t.Knows decls) :
    t.known.map (·.1) = decls.map (·.name) := by
  unfold Knows at h
  generalize t.known = known at h ⊢
  induction h with
  | nil => rfl
  | cons hfirst _ ih => rw [List.map_cons, List.map_cons, hfirst.1, ih]

/-- Of several enums with one name, the first counts. -/
theorem Knows.isSome_lookup {decls : List EnumDecl} (h : t.Knows decls) (enum x : String) :
    ((t.members? enum).bind (List.lookup x)).isSome =
      (decls.find? (·.name = enum)).any (decide <| ·.Declares x) := by
  unfold members?
  unfold Knows at h
  generalize t.known = known at h
  induction h with
  | nil => rfl
  | @cons known decl others rest hfirst hrest ih =>
      obtain ⟨name, members⟩ := known
      obtain ⟨rfl, hmembers⟩ := hfirst
      by_cases henum : decl.name = enum
      · have hx : (List.lookup x members).isSome = decide (decl.Declares x) :=
          Bool.eq_iff_iff.mpr (by simpa using hmembers x)
        simpa [henum] using hx
      · simp only [List.lookup_cons, List.find?_cons, henum, decide_false]
        rw [beq_false_of_ne (Ne.symm henum)]
        exact ih

end EnumTable

namespace Protocol

/-- The enums that own a member while some are known: where several have one name, each of them owns
the members of the first. -/
def owners (p : Protocol) (known : List EnumDecl) (member : String) : List EnumDecl :=
  p.enums.filter fun e => (known.find? (·.name = e.name)).any (decide <| ·.Declares member)

variable {p : Protocol}

theorem names_owners {t : EnumTable} {known : List EnumDecl} (h : t.Knows known)
    (hdeclared : t.declared = p.enums.map (·.name)) (member : String) :
    (t.owners member).map (·.1) = (p.owners known member).map (·.name) := by
  unfold EnumTable.owners Protocol.owners
  rw [hdeclared]
  induction p.enums with
  | nil => rfl
  | cons e rest ih =>
      rw [List.map_cons, List.filterMap_cons, List.filter_cons, ← h.isSome_lookup]
      cases ((t.members? e.name).bind (List.lookup member)) with
      | none => simpa using ih
      | some v => simpa using ih

theorem length_owners {t : EnumTable} {known : List EnumDecl} (h : t.Knows known)
    (hdeclared : t.declared = p.enums.map (·.name)) (member : String) :
    (t.owners member).length = (p.owners known member).length := by
  simpa using congrArg List.length (names_owners h hdeclared member)

theorem find?_name_of_mem {α : Type} {name : α → String} {decls : List α}
    (hnames : (decls.map name).Nodup) {x : α} (hx : x ∈ decls) :
    decls.find? (name · = name x) = some x := by
  have hsome : (decls.find? (name · = name x)).isSome := by
    rw [List.find?_isSome]
    exact ⟨x, hx, by simp⟩
  obtain ⟨found, hfound⟩ := Option.isSome_iff_exists.mp hsome
  have hmem := List.mem_of_find?_eq_some hfound
  have hname : name found = name x := by simpa using List.find?_some hfound
  rw [hfound, List.inj_on_of_nodup_map hnames hmem hx hname]

/-- Where the names of enums are distinct, a member is owned by those of the known enums that
declare it. -/
theorem owners_of_nodup (hnames : (p.enums.map (·.name)).Nodup) {known rest : List EnumDecl}
    (henums : p.enums = known ++ rest) (member : String) :
    p.owners known member = known.filter (·.Declares member) := by
  rw [henums, List.map_append, List.nodup_append] at hnames
  obtain ⟨hknown, -, hdisjoint⟩ := hnames
  have hfirst : known.filter
      (fun e => (known.find? (·.name = e.name)).any (decide <| ·.Declares member)) =
        known.filter (·.Declares member) := by
    apply List.filter_congr
    intro e he
    rw [find?_name_of_mem hknown he, Option.any_some]
  have hrest : rest.filter
      (fun e => (known.find? (·.name = e.name)).any (decide <| ·.Declares member)) = [] := by
    refine List.filter_eq_nil_iff.mpr fun e he => ?_
    have hnone : known.find? (·.name = e.name) = none := by
      refine List.find?_eq_none.mpr fun other hother => ?_
      simpa using hdisjoint _ (List.mem_map_of_mem hother) _ (List.mem_map_of_mem he)
    simp [hnone]
  rw [owners, henums, List.filter_append, hfirst, hrest, List.append_nil]

/-- The table while the values of the next enum are computed. -/
def tableAfter (p : Protocol) (b : Builtins) (done : List EnumDecl) : EnumTable :=
  (EnumTable.extend b ⟨p.enums.map (·.name), []⟩ done).value

/-- What is known there. -/
def contextAfter (p : Protocol) (b : Builtins) (done : List EnumDecl) : Context where
  builtins := b
  enums := p.tableAfter b done

theorem context_eq (o : Options) : p.context o = p.contextAfter o.builtins p.enums := rfl

theorem knows_tableAfter (b : Builtins) (done : List EnumDecl) : (p.tableAfter b done).Knows done :=
  EnumTable.knows_extend (EnumTable.knows_nil _) done

theorem declared_tableAfter (b : Builtins) (done : List EnumDecl) :
    (p.tableAfter b done).declared = p.enums.map (·.name) :=
  EnumTable.declared_extend done

/-- The problems of all enums are those before one of them, those of its members and those behind
it. -/
theorem problems_enums {b : Builtins} {front back : List EnumDecl} {decl : EnumDecl}
    (henums : p.enums = front ++ decl :: back) :
    (EnumTable.ofProtocol b p).problems =
      (EnumTable.extend b ⟨p.enums.map (·.name), []⟩ front).problems ++
        (((p.contextAfter b front).membersFrom decl.name [] decl.members).problems ++
          (EnumTable.extend b (p.tableAfter b (front ++ [decl])) back).problems) := by
  have htable : p.tableAfter b (front ++ [decl]) =
      (EnumTable.extend b (p.tableAfter b front) [decl]).value :=
    EnumTable.value_extend_append front [decl]
  rw [htable, EnumTable.ofProtocol, contextAfter, tableAfter]
  generalize EnumTable.mk (p.enums.map (·.name)) [] = t
  rw [henums, EnumTable.problems_extend_append]
  rfl

end Protocol

namespace Context

variable {c : Context} {name : String}

/-! ### Names without an enum -/

theorem isBound_lookupMember :
    (c.lookupMember name).isBound ↔ (c.enums.owners name).length = 1 := by
  unfold lookupMember
  split <;> rename_i h <;> simp [h, Binding.isBound]

theorem exists_const_of_owner (h : (c.enums.owners name).length = 1) :
    ∃ v, c.lookupMember name = .bound (.const v) := by
  obtain ⟨⟨enum, v⟩, howners⟩ := List.length_eq_one_iff.mp h
  exact ⟨v, by rw [lookupMember, howners]⟩

theorem lookupMember_of_owners {enum₁ enum₂ : String} {rest : List String}
    (h : (c.enums.owners name).map (·.1) = enum₁ :: enum₂ :: rest) :
    c.lookupMember name = .ambiguous enum₁ enum₂ := by
  unfold lookupMember
  split <;> rename_i howners <;> simp_all

theorem lastPlace?_eq_none {names : List String} (h : name ∉ names) :
    lastPlace? names name = none := by
  refine List.lookup_eq_none_iff.mpr ?_
  rintro ⟨other, place⟩ hmem
  have hother :=
    List.mem_of_getElem? (List.mk_mem_zipIdx_iff_getElem?.mp (List.mem_reverse.mp hmem))
  exact bne_iff_ne.mpr fun heq => h (heq ▸ hother)

/-- A name that no visible field has is looked up among the members. -/
theorem lookup_fields_of_not_mem {visible : List String} (hthis : name ≠ "this")
    (hvisible : name ∉ visible) : c.lookup (.fields visible) name = c.lookupMember name := by
  simp [lookup, hthis, lastPlace?_eq_none hvisible]

theorem lookup_constants_of_eq_none {own : Members} (h : own.lookup name = none) :
    c.lookup (.constants own) name = c.lookupMember name := by
  simp [lookup, h]

/-! ### Names in front of a point -/

/-- Only a name can be that of an enum. -/
theorem qualifier?_eq_none {scope : Scope} {o : Expr}
    (h : ∀ position name, o ≠ .name position name) : c.qualifier? scope o = none := by
  cases o <;> first | rfl | exact absurd rfl (h _ _)

end Context

end WireSpec
