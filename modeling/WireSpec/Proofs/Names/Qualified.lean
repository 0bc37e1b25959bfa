import WireSpec.Proofs.Formula.Folding
import WireSpec.Proofs.Names.Table
/-!
# Members named with their enum

Behind the name of its enum and a point, a member stands for the value that was computed for it.
The name in front of the point is looked up first, however, as if it stood alone: where exactly one
enum has a member of that name, it means this member and no longer an enum.
-/

namespace WireSpec

/-- This value is computed for a member of an enum, behind the enums before its own and the members
before it. -/
def Protocol.Computes (p : Protocol) (b : Builtins) (decl : EnumDecl) (member : String)
    (v : Operand) : Prop :=
  ∃ front back before value after, p.enums = front ++ decl :: back ∧
    decl.members = before ++ (member, value) :: after ∧
      let c := p.contextAfter b front
      c.bind (.constants (c.membersFrom decl.name [] before).value) value = pure (.const v)

namespace EnumTable

variable {b : Builtins} {t : EnumTable}

theorem exists_known_extend (decls : List EnumDecl) :
    ∃ later, (extend b t decls).value.known = t.known ++ later := by
  fun_induction extend b t decls with
  | case1 t => exact ⟨[], (List.append_nil _).symm⟩
  | case2 t decl rest ih =>
      obtain ⟨later, hlater⟩ := ih _
      exact ⟨_ :: later, by rw [Checked.value_bind, hlater, List.append_assoc]; rfl⟩

/-- An enum whose name is new is found with its own members, whatever enums come behind it. -/
theorem members?_extend_cons {done : List EnumDecl} (h : t.Knows done) {decl : EnumDecl}
    (hnew : decl.name ∉ done.map (·.name)) (rest : List EnumDecl) :
    (extend b t (decl :: rest)).value.members? decl.name =
      some (Context.membersFrom ⟨b, t⟩ decl.name [] decl.members).value := by
  have hnone : t.known.lookup decl.name = none := by
    refine List.lookup_eq_none_iff.mpr fun known hknown => bne_iff_ne.mpr fun heq => hnew ?_
    rw [← h.names_eq, heq]
    exact List.mem_map_of_mem hknown
  obtain ⟨later, hlater⟩ := exists_known_extend (b := b)
    (t := { t with known := t.known ++
      [(decl.name, (Context.membersFrom ⟨b, t⟩ decl.name [] decl.members).value)] }) rest
  rw [members?, extend, Checked.value_bind, hlater, List.append_assoc, List.lookup_append, hnone]
  simp

end EnumTable

theorem Checked.eq_pure {α : Type} {x : Checked α} (h : x.problems = []) : x = pure x.value := by
  obtain ⟨value, problems⟩ := x
  obtain rfl : problems = [] := h
  rfl

namespace Context

variable {c : Context} {enum : String}

theorem bind_eq_of_memberValue {own : Members} {member : String} {value : Expr}
    (h : (c.memberValue enum own member value).problems = []) :
    c.bind (.constants own) value = pure (.const (c.memberValue enum own member value).value) := by
  unfold memberValue at h ⊢
  rw [Checked.problems_bind, List.append_eq_nil_iff] at h
  rw [Checked.value_bind]
  cases hconst : (c.bind (.constants own) value).value.constant? with
  | none => simp [hconst, Checked.reportAt, Checked.report] at h
  | some v =>
      obtain ⟨w, hw⟩ := Formula.exists_const_of_constant? (by rw [hconst]; rfl)
      rw [hw] at hconst
      obtain rfl := Option.some.inj hconst
      exact (Checked.eq_pure h.1).trans (by rw [hw]; rfl)

/-- Where nothing is wrong with an enum, the value of a member is what is computed behind the
members before it. -/
theorem lookup_membersFrom_of_clean {before after : List (String × Expr)} {member : String}
    {value : Expr}
    (h : (c.membersFrom enum [] (before ++ (member, value) :: after)).problems = []) :
    ∃ v, (c.membersFrom enum [] (before ++ (member, value) :: after)).value.lookup member = some v ∧
      c.bind (.constants (c.membersFrom enum [] before).value) value = pure (.const v) := by
  rw [problems_membersFrom_append, List.append_eq_nil_iff] at h
  rw [value_membersFrom_append]
  have hown := lookup_eq_none_of_problems h.2
  generalize (c.membersFrom enum [] before).value = own at h hown ⊢
  rw [membersFrom_cons_of_new hown] at h ⊢
  simp only [Checked.problems_bind, List.append_eq_nil_iff] at h
  refine ⟨_, ?_, bind_eq_of_memberValue h.2.1⟩
  apply lookup_membersFrom
  rw [List.lookup_append, hown, Option.none_or]
  simp

end Context

namespace Protocol

variable {p : Protocol} {o : Options} {decl : EnumDecl} {member : String}

/-- The table that the expressions of messages are bound with has the computed value of each
member. -/
theorem exists_value_of_declares (hnames : (p.enums.map (·.name)).Nodup)
    (hclean : (EnumTable.ofProtocol o.builtins p).problems = []) (hdecl : decl ∈ p.enums)
    (hmember : decl.Declares member) :
    ∃ members v, (p.context o).enums.members? decl.name = some members ∧
      members.lookup member = some v ∧ p.Computes o.builtins decl member v := by
  obtain ⟨front, back, henums⟩ := List.append_of_mem hdecl
  obtain ⟨⟨_, value⟩, hvalue, rfl⟩ := List.mem_map.mp hmember
  obtain ⟨before, after, hmembers⟩ := List.append_of_mem hvalue
  have hnew : decl.name ∉ front.map (·.name) := by
    rw [henums, List.map_append, List.map_cons] at hnames
    have hdisjoint := List.disjoint_of_nodup_append hnames
    exact fun hmem => hdisjoint hmem List.mem_cons_self
  have hproblems : ((p.contextAfter o.builtins front).membersFrom decl.name []
      decl.members).problems = [] := by
    rw [problems_enums henums] at hclean
    simp only [List.append_eq_nil_iff] at hclean
    exact hclean.2.1
  rw [hmembers] at hproblems
  obtain ⟨v, hlookup, hbind⟩ := Context.lookup_membersFrom_of_clean hproblems
  refine ⟨_, v, ?_, hlookup, front, back, before, value, after, henums, hmembers, hbind⟩
  rw [← hmembers, contextAfter,
    ← EnumTable.members?_extend_cons (knows_tableAfter _ front) hnew back, tableAfter,
    ← EnumTable.value_extend_append, ← henums]
  rfl

/-- The name of an enum in front of a point means the enum, where no visible field has it and it is
not that of exactly one member. -/
theorem qualifier?_eq_some {members : Members} {visible : List String}
    (hvisible : decl.name ∉ visible) (hthis : decl.name ≠ "this")
    (hmembers : (p.context o).enums.members? decl.name = some members)
    (howners : ((p.context o).enums.owners decl.name).length ≠ 1) (position : Position) :
    (p.context o).qualifier? (.fields visible) (.name position decl.name) =
      some (decl.name, members) := by
  have hbound : ¬((p.context o).lookup (.fields visible) decl.name).isBound = true := by
    rw [Context.lookup_fields_of_not_mem hthis hvisible, Context.isBound_lookupMember]
    exact howners
  rw [Context.qualifier?, if_neg hbound, hmembers, Option.map_some]

/-- Where the name in front of a point has a value, only the length of this value can follow. -/
theorem bind_shadowed {visible : List String} {name : String} {w : Operand}
    (hlookup : (p.context o).lookup (.fields visible) name = .bound (.const w))
    (position : Position) :
    (p.context o).bind (.fields visible) (.member (.name position name) member) =
      if member = "length" then Context.fold position (.length (.const w))
      else Context.invalid position (.unknownMember member) := by
  have hbind : (p.context o).bindWith Context.fold (.fields visible) (.name position name) =
      pure (.const w) := by
    rw [Context.bindWith, Context.bindName, hlookup]
  have hqualifier : (p.context o).qualifier? (.fields visible) (.name position name) = none := by
    rw [Context.qualifier?, hlookup]
    rfl
  rw [Context.bind, Context.bindWith, hqualifier]
  simp only [hbind]
  rfl

theorem fold_length_eq_pure {position : Position} {v w : Operand} :
    Context.fold position (.length (.const w)) = pure (.const v) ↔
      (Formula.length (.const w)).eval .constant = .ok v := by
  have hready : (Formula.length (.const w)).isReady = true := rfl
  rw [Context.fold, if_pos hready]
  cases heval : (Formula.length (.const w)).eval .constant with
  | ok v' =>
      constructor
      · intro h
        cases h
        rfl
      · rintro ⟨⟩
        rfl
  | error e =>
      constructor
      · intro h
        cases congrArg Checked.problems h
      · rintro ⟨⟩

/-- In the expressions of messages, a member behind the name of its enum and a point stands for the
value computed for it, unless exactly one enum has a member with the name of the enum.  With one,
the point gets only a length, and this is right by chance alone. -/
theorem bind_qualified_iff (hnames : (p.enums.map (·.name)).Nodup)
    (hclean : (EnumTable.ofProtocol o.builtins p).problems = []) (hdecl : decl ∈ p.enums)
    (hmember : decl.Declares member) {visible : List String} (hvisible : decl.name ∉ visible)
    (hthis : decl.name ≠ "this") (position : Position) :
    ∃ v, p.Computes o.builtins decl member v ∧
      ((p.context o).bind (.fields visible) (.member (.name position decl.name) member) =
          pure (.const v) ↔
        (p.enums.filter (·.Declares decl.name)).length ≠ 1 ∨
          member = "length" ∧ ∃ w, (p.context o).lookupMember decl.name = .bound (.const w) ∧
            (Formula.length (.const w)).eval .constant = .ok v) ∧
      ((p.enums.filter (·.Declares decl.name)).length = 1 → member ≠ "length" →
        (p.context o).bind (.fields visible) (.member (.name position decl.name) member) =
          Context.invalid position (.unknownMember member)) := by
  obtain ⟨members, v, hmembers, hlookup, hcomputes⟩ := exists_value_of_declares hnames hclean
    hdecl hmember
  have howners : ((p.context o).enums.owners decl.name).length =
      (p.enums.filter (·.Declares decl.name)).length := by
    rw [← owners_of_nodup hnames (List.append_nil _).symm]
    exact length_owners (knows_tableAfter o.builtins p.enums) (declared_tableAfter _ _) _
  refine ⟨v, hcomputes, ?_⟩
  by_cases hone : (p.enums.filter (·.Declares decl.name)).length = 1
  · obtain ⟨w, hw⟩ := Context.exists_const_of_owner (howners.trans hone)
    have hvalue := (Context.lookup_fields_of_not_mem hthis hvisible).trans hw
    rw [bind_shadowed hvalue]
    refine ⟨?_, fun _ hlength => if_neg hlength⟩
    by_cases hlength : member = "length"
    · rw [if_pos hlength, fold_length_eq_pure, hw]
      simp [hone, hlength]
    · rw [if_neg hlength]
      constructor
      · intro h
        cases congrArg Checked.problems h
      · rintro (h | ⟨h, _⟩)
        · exact absurd hone h
        · exact absurd h hlength
  · have hqualifier := qualifier?_eq_some hvisible hthis hmembers (howners ▸ hone) position
    refine ⟨iff_of_true ?_ (Or.inl hone), fun h => absurd h hone⟩
    rw [Context.bind, Context.bindWith, hqualifier]
    simp only [hlookup]

def number (n : UInt64) : Expr := .literal .start (.integer n)

def named (name : String) : Expr := .name .start name

/-- An enum with members of these integer values. -/
def enumOf (name : String) (members : List (String × UInt64)) : EnumDecl where
  name
  members := members.map fun (member, n) => (member, number n)
  position := .start

def ofEnums (enums : List EnumDecl) : Protocol where
  name := "P"
  version := none
  description := none
  imports := []
  enums
  messages := []
  rules := none

/-- Two enums have a member with the name of the third, so that name alone has no value. -/
def twiceNamed : Protocol :=
  .ofEnums [enumOf "A" [("E", 1)], enumOf "B" [("E", 2)], enumOf "E" [("X", 3)]]

theorem bind_qualified_iff_twiceNamed :
    (twiceNamed.enums.map (·.name)).Nodup ∧
      (EnumTable.ofProtocol Builtins.standard twiceNamed).problems = [] ∧
      ∃ v, twiceNamed.Computes .standard (enumOf "E" [("X", 3)]) "X" v ∧
        (twiceNamed.context {}).bind (.fields ["n"]) (.member (named "E") "X") =
          pure (.const v) := by
  have hnames : (twiceNamed.enums.map (·.name)).Nodup := by decide
  have hclean : (EnumTable.ofProtocol Builtins.standard twiceNamed).problems = [] := by
    decide +kernel
  have hdecl : enumOf "E" [("X", 3)] ∈ twiceNamed.enums := by simp [twiceNamed, ofEnums]
  have hmember : (enumOf "E" [("X", 3)]).Declares "X" := by decide
  have hvisible : (enumOf "E" [("X", 3)]).name ∉ ["n"] := by decide
  obtain ⟨v, hcomputes, hiff, _⟩ :=
    bind_qualified_iff (o := {}) hnames hclean hdecl hmember hvisible (by decide) .start
  exact ⟨hnames, hclean, v, hcomputes, hiff.mpr (Or.inl (by decide))⟩

/-- One enum has a member with the name of the other. -/
def onceNamed : Protocol := .ofEnums [enumOf "A" [("E", 1)], enumOf "E" [("X", 3)]]

/-- The only member of the second enum is then an unknown one, although no field has the name of the
enum. -/
theorem bind_qualified_onceNamed :
    (onceNamed.enums.map (·.name)).Nodup ∧
      (EnumTable.ofProtocol Builtins.standard onceNamed).problems = [] ∧
      enumOf "E" [("X", 3)] ∈ onceNamed.enums ∧ (enumOf "E" [("X", 3)]).Declares "X" ∧
      "E" ∉ ([] : List String) ∧ "E" ≠ "this" ∧
      ((onceNamed.context {}).bind (.fields []) (.member (named "E") "X")).problems =
        [(some .start, .unknownMember "X")] ∧
      ¬∃ v, (onceNamed.context {}).bind (.fields []) (.member (named "E") "X") =
        pure (.const v) := by
  have hproblems : ((onceNamed.context {}).bind (.fields []) (.member (named "E") "X")).problems =
      [(some .start, .unknownMember "X")] := by
    decide +kernel
  refine ⟨by decide, by decide +kernel, by simp [onceNamed, ofEnums], by decide, by decide,
    by decide, hproblems, ?_⟩
  rintro ⟨v, hv⟩
  rw [hv] at hproblems
  cases hproblems

end Protocol

end WireSpec
