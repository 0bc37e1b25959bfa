import WireSpec.Proofs.Formula.Folding
import WireSpec.Proofs.Names.Table
/-!
# A name that nothing has

One name of an expression is replaced by one that is declared nowhere.  This is reported once, and
only once.  What is left of the expression is `null` if the name is that of its outermost part, and
otherwise a formula that is never computed.
-/

namespace WireSpec

namespace Expr

/-- The second expression has `n` in place of one name of the first. -/
inductive Misspells (n : String) : Expr → Expr → Prop where
  | name {position : Position} {word : String} :
      Misspells n (.name position word) (.name position n)
  | unary {position : Position} {op : UnaryOp} {e e' : Expr} (h : Misspells n e e') :
      Misspells n (.unary position op e) (.unary position op e')
  | left {op : BinaryOp} {l l' r : Expr} (h : Misspells n l l') :
      Misspells n (.binary op l r) (.binary op l' r)
  | right {op : BinaryOp} {l r r' : Expr} (h : Misspells n r r') :
      Misspells n (.binary op l r) (.binary op l r')
  | object {o o' : Expr} {word : String} (h : Misspells n o o') :
      Misspells n (.member o word) (.member o' word)
  | member {o : Expr} {word : String} : Misspells n (.member o word) (.member o n)
  | indexed {o o' i : Expr} (h : Misspells n o o') : Misspells n (.index o i) (.index o' i)
  | index {o i i' : Expr} (h : Misspells n i i') : Misspells n (.index o i) (.index o i')
  | sliced {o o' i j : Expr} (h : Misspells n o o') : Misspells n (.slice o i j) (.slice o' i j)
  | start {o i i' j : Expr} (h : Misspells n i i') : Misspells n (.slice o i j) (.slice o i' j)
  | stop {o i j j' : Expr} (h : Misspells n j j') : Misspells n (.slice o i j) (.slice o i j')
  | function {position : Position} {word : String} {args : List Expr} :
      Misspells n (.call position word args) (.call position n args)
  | argument {position : Position} {word : String} {front back : List Expr} {e e' : Expr}
      (h : Misspells n e e') :
      Misspells n (.call position word (front ++ e :: back))
        (.call position word (front ++ e' :: back))

/-- The misspelled name makes all of the expression unknown, not only a part of it. -/
def isUnknown (n : String) : Expr → Bool
  | .name _ word => word == n
  | .member (.name _ object) word => word == n || object == n && word != "length"
  | .member _ word => word == n
  | .call _ function _ => function == n
  | _ => false

variable {n : String} {o o' : Expr}

theorem Misspells.not_name (h : Misspells n o o') (ho : ∀ position name, o ≠ .name position name) :
    ∀ position name, o' ≠ .name position name := by
  cases h with
  | name => exact absurd rfl (ho _ _)
  | _ => rintro _ _ ⟨⟩

theorem isUnknown_member (ho : ∀ position name, o ≠ .name position name) (word : String) :
    (Expr.member o word).isUnknown n = (word == n) := by
  cases o <;> first | rfl | exact absurd rfl (ho _ _)

end Expr

namespace Context

variable {c : Context} {scope : Scope} {n : String} {position : Position}

/-- Nothing that can be named in this scope has this name. -/
structure Lacks (c : Context) (scope : Scope) (n : String) : Prop where
  lookup : c.lookup scope n = .unbound
  enum : c.enums.members? n = none
  member : ∀ enum members, c.enums.members? enum = some members → members.lookup n = none
  builtin : c.builtins.find? n = none
  this : n ≠ "this"
  length : n ≠ "length"

/-- There is one problem, and the formula is `null` if all of it is unknown and no constant if only
a part is. -/
structure ReportedOnce (f : Checked Formula) (unknown : Bool) : Prop where
  problems : f.problems.length = 1
  constant : f.value.constant? = if unknown then some .null else none

theorem reportedOnce_invalid (position : Position) (error : SemanticError) :
    ReportedOnce (invalid position error) true := ⟨rfl, rfl⟩

theorem settleWith_of_problems {settle : Position → Formula → Checked Formula} {f : Checked Formula}
    (h : f.problems ≠ []) : settleWith settle position f = f := by
  rw [settleWith, if_neg (by simpa using h)]

/-- With one problem among the parts there is nothing to settle. -/
theorem reportedOnce_settleWith {f : Checked Formula} (h : f.problems.length = 1)
    (hconstant : f.value.constant? = none) :
    ReportedOnce (settleWith fold position f) false := by
  rw [settleWith_of_problems (by rintro hnil; simp [hnil] at h)]
  exact ⟨h, hconstant⟩

theorem Lacks.bindName (h : c.Lacks scope n) (position : Position) :
    c.bindName scope position n = invalid position (.unknownIdentifier n) := by
  simp [Context.bindName, h.lookup, Builtins.contains, h.builtin, h.this]

theorem Lacks.qualifier? (h : c.Lacks scope n) (position : Position) :
    c.qualifier? scope (.name position n) = none := by
  simp [Context.qualifier?, h.lookup, Binding.isBound, h.enum]

/-- A member of an unknown name is unknown. -/
theorem Lacks.reportedOnce_member (hn : c.Lacks scope n) (o : Expr) :
    ReportedOnce (c.bind scope (.member o n)) true := by
  rw [bind, bindWith]
  cases hq : c.qualifier? scope o with
  | none =>
      simp only [if_neg hn.length]
      exact reportedOnce_invalid _ _
  | some q =>
      obtain ⟨enum, members⟩ := q
      have hmembers : c.enums.members? enum = some members := by
        unfold Context.qualifier? at hq
        split at hq
        · split at hq
          · cases hq
          · obtain ⟨found, hfound, heq⟩ := Option.map_eq_some_iff.mp hq
            cases heq
            exact hfound
        · cases hq
      simp only [hn.member enum members hmembers]
      exact reportedOnce_invalid _ _

/-- What is in front of a point is unknown there; its length would be that of `null`. -/
theorem Lacks.reportedOnce_of_object (hn : c.Lacks scope n) (position : Position) (word : String) :
    ReportedOnce (c.bind scope (.member (.name position n) word))
      ((Expr.member (.name position n) word).isUnknown n) := by
  rw [bind, bindWith, hn.qualifier?]
  by_cases hlength : word = "length"
  · subst hlength
    have hunknown : (Expr.member (.name position n) "length").isUnknown n = false := by
      simp [Expr.isUnknown, hn.length.symm]
    rw [hunknown]
    refine reportedOnce_settleWith ?_ rfl
    simp [bindWith, hn.bindName, invalid, Checked.reportAt, Checked.report]
  · have hunknown : (Expr.member (.name position n) word).isUnknown n = true := by
      simp [Expr.isUnknown, hlength]
    simp only [if_neg hlength, hunknown]
    exact reportedOnce_invalid _ _

/-- One misspelled name in an expression without a problem is reported once. -/
theorem Lacks.reportedOnce_bind (hn : c.Lacks scope n) {e e' : Expr} (h : e.Misspells n e')
    (hclean : (c.bind scope e).problems = []) :
    ReportedOnce (c.bind scope e') (e'.isUnknown n) := by
  induction h with
  | @name position word =>
      have hunknown : (Expr.name position n).isUnknown n = true := beq_self_eq_true n
      rw [bind, bindWith, hn.bindName, hunknown]
      exact reportedOnce_invalid _ _
  | unary h ih =>
      have hparts := (problems_of_settleWith hclean).1
      simp only [Checked.problems_bind, List.append_eq_nil_iff] at hparts
      refine reportedOnce_settleWith ?_ rfl
      simpa [bind] using (ih hparts.1).problems
  | left h ih =>
      have hparts := (problems_of_settleWith hclean).1
      simp only [Checked.problems_bind, List.append_eq_nil_iff] at hparts
      refine reportedOnce_settleWith ?_ rfl
      simpa [bind, hparts.2.1] using (ih hparts.1).problems
  | right h ih =>
      have hparts := (problems_of_settleWith hclean).1
      simp only [Checked.problems_bind, List.append_eq_nil_iff] at hparts
      refine reportedOnce_settleWith ?_ rfl
      simpa [bind, hparts.1] using (ih hparts.2.1).problems
  | @object o o' word h ih =>
      by_cases hname : ∃ position name, o = .name position name
      · obtain ⟨position, name, rfl⟩ := hname
        cases h
        exact hn.reportedOnce_of_object position word
      · have ho : ∀ position name, o ≠ .name position name := by simpa using hname
        rw [bind, bindWith, qualifier?_eq_none ho] at hclean
        have hlength : word = "length" := by
          by_contra hlength
          simp only [if_neg hlength] at hclean
          cases hclean
        subst hlength
        have hparts := (problems_of_settleWith hclean).1
        simp only [Checked.problems_bind, List.append_eq_nil_iff] at hparts
        rw [Expr.isUnknown_member (h.not_name ho), beq_false_of_ne hn.length.symm, bind, bindWith,
          qualifier?_eq_none (h.not_name ho)]
        refine reportedOnce_settleWith ?_ rfl
        simpa [bind] using (ih hparts.1).problems
  | @member o word =>
      have hunknown : (Expr.member o n).isUnknown n = true := by
        cases o <;> simp [Expr.isUnknown]
      rw [hunknown]
      exact hn.reportedOnce_member o
  | indexed h ih =>
      have hparts := (problems_of_settleWith hclean).1
      simp only [Checked.problems_bind, List.append_eq_nil_iff] at hparts
      refine reportedOnce_settleWith ?_ rfl
      simpa [bind, hparts.2.1] using (ih hparts.1).problems
  | index h ih =>
      have hparts := (problems_of_settleWith hclean).1
      simp only [Checked.problems_bind, List.append_eq_nil_iff] at hparts
      refine reportedOnce_settleWith ?_ rfl
      simpa [bind, hparts.1] using (ih hparts.2.1).problems
  | sliced h ih =>
      have hparts := (problems_of_settleWith hclean).1
      simp only [Checked.problems_bind, List.append_eq_nil_iff] at hparts
      refine reportedOnce_settleWith ?_ rfl
      simpa [bind, hparts.2.1, hparts.2.2.1] using (ih hparts.1).problems
  | start h ih =>
      have hparts := (problems_of_settleWith hclean).1
      simp only [Checked.problems_bind, List.append_eq_nil_iff] at hparts
      refine reportedOnce_settleWith ?_ rfl
      simpa [bind, hparts.1, hparts.2.2.1] using (ih hparts.2.1).problems
  | stop h ih =>
      have hparts := (problems_of_settleWith hclean).1
      simp only [Checked.problems_bind, List.append_eq_nil_iff] at hparts
      refine reportedOnce_settleWith ?_ rfl
      simpa [bind, hparts.1, hparts.2.1] using (ih hparts.2.2.1).problems
  | @function position word args =>
      have hunknown : (Expr.call position n args).isUnknown n = true := beq_self_eq_true n
      rw [bind, bindWith, hn.builtin, hunknown]
      exact reportedOnce_invalid _ _
  | @argument position word front back e e' h ih =>
      rw [bind, bindWith] at hclean ⊢
      cases hfunction : c.builtins.find? word with
      | none => simp [hfunction, invalid, Checked.reportAt, Checked.report] at hclean
      | some f =>
          have hword : (word == n) = false := by
            refine beq_false_of_ne ?_
            rintro rfl
            simp [hn.builtin] at hfunction
          have hunknown :
              (Expr.call position word (front ++ e' :: back)).isUnknown n = false := hword
          simp only [hfunction, hunknown] at hclean ⊢
          split at hclean
          · rename_i a hargs
            obtain ⟨rfl, rfl, rfl⟩ : front = [] ∧ back = [] ∧ e = a := by
              cases front <;> simp_all
            have hparts := (problems_of_settleWith hclean).1
            simp only [Checked.problems_bind, List.append_eq_nil_iff] at hparts
            refine reportedOnce_settleWith ?_ rfl
            simpa [bind] using (ih hparts.1).problems
          · cases hclean

end Context

end WireSpec
