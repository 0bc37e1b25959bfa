import Mathlib
import WireSpec.Proofs.Codec.Occupation
/-!
# Rules annotate

Under any rules a plan decodes an input to the same fields, or fails with the same error.  Display
text and color both come from the rule of least index whose condition has a value that counts as
true.  Neither rules that do not match nor rules behind one that matches have a part in the result.
-/

namespace WireSpec

variable {env : Env} {fields : List FieldPlan} {rules rules' : List Rule}
  {display color : Option String}

/-- The condition of the rule has a value, and that counts as true. -/
def Rule.Matches (r : Rule) (env : Env) : Prop :=
  ∃ v, r.condition.eval env = .ok v ∧ v.truthy = true

/-- A formula shows the text of its value, and nothing where it has no value. -/
inductive Formula.Shows (env : Env) : Option Formula → Option String → Prop where
  | missing : Shows env none none
  | value {f : Formula} {v : Operand} (h : f.eval env = .ok v) : Shows env (some f) (some v.text)
  | failed {f : Formula} {e : EvalError} (h : f.eval env = .error e) : Shows env (some f) none

/-- A template always shows a text. -/
inductive Display.Shows (fields : List FieldPlan) (env : Env) :
    Option Display → Option String → Prop where
  | missing : Shows fields env none none
  | template (t : Template Nat) :
      Shows fields env (some (.template t)) (some (t.render fields env.slots))
  | formula {f : Formula} {text : Option String} (h : Formula.Shows env (some f) text) :
      Shows fields env (some (.formula f)) text

/-- The display text and the color that a list of rules gives, both by the first of them that
matches. -/
inductive Annotates (fields : List FieldPlan) (env : Env) :
    List Rule → Option String → Option String → Prop where
  | none {rules : List Rule} (h : ∀ r ∈ rules, ¬r.Matches env) : Annotates fields env rules none none
  | first {before after : List Rule} {r : Rule} {display color : Option String}
      (hbefore : ∀ r ∈ before, ¬r.Matches env) (hr : r.Matches env)
      (hdisplay : Display.Shows fields env r.display display)
      (hcolor : Formula.Shows env r.color color) :
      Annotates fields env (before ++ r :: after) display color

/-- Rules of which some that do not match have been left out or put in, and of those behind one that
matches any. -/
inductive Revision (env : Env) : List Rule → List Rule → Prop where
  | nil : Revision env [] []
  | keep {rules rules' : List Rule} (r : Rule) (h : Revision env rules rules') :
      Revision env (r :: rules) (r :: rules')
  | delete {rules rules' : List Rule} {r : Rule} (hr : ¬r.Matches env)
      (h : Revision env rules rules') : Revision env (r :: rules) rules'
  | insert {rules rules' : List Rule} {r : Rule} (hr : ¬r.Matches env)
      (h : Revision env rules rules') : Revision env rules (r :: rules')
  | behind {r : Rule} (hr : r.Matches env) (rules rules' : List Rule) :
      Revision env (r :: rules) (r :: rules')

namespace Plan

/-! ### The first rule that matches -/

theorem applies_iff {r : Rule} : applies env r = true ↔ r.Matches env := by
  unfold applies Rule.Matches
  cases r.condition.eval env with
  | ok v => simp
  | error e => simp

theorem applies_eq_false_iff {r : Rule} : applies env r = false ↔ ¬r.Matches env := by
  rw [← applies_iff, Bool.not_eq_true]

theorem formulaText?_eq_iff {f : Option Formula} {text : Option String} :
    f.bind (formulaText? env) = text ↔ Formula.Shows env f text := by
  constructor
  · rintro rfl
    cases f with
    | none => exact .missing
    | some f =>
        rw [Option.bind_some, formulaText?]
        split
        · exact .value ‹_›
        · exact .failed ‹_›
  · intro h
    cases h with
    | missing => rfl
    | value h => rw [Option.bind_some, formulaText?, h]
    | failed h => rw [Option.bind_some, formulaText?, h]

theorem displayText?_eq_iff {p : Plan} {d : Option Display} {text : Option String} :
    d.bind (p.displayText? env) = text ↔ Display.Shows p.fields env d text := by
  constructor
  · rintro rfl
    match d with
    | none => exact .missing
    | some (.template t) => exact .template t
    | some (.formula f) => exact .formula (formulaText?_eq_iff.mp rfl)
  · intro h
    cases h with
    | missing | template => rfl
    | formula h => exact formulaText?_eq_iff.mpr h

theorem find?_applies_eq_some {r : Rule} :
    rules.find? (applies env) = some r ↔ ∃ before after, rules = before ++ r :: after ∧
      (∀ r ∈ before, ¬r.Matches env) ∧ r.Matches env := by
  rw [List.find?_eq_some_iff_append]
  constructor
  · rintro ⟨hr, before, after, rfl, hbefore⟩
    refine ⟨before, after, rfl, fun r hr => ?_, applies_iff.mp hr⟩
    exact applies_eq_false_iff.mp (by simpa using hbefore r hr)
  · rintro ⟨before, after, rfl, hbefore, hr⟩
    refine ⟨applies_iff.mpr hr, before, after, rfl, fun r hr => ?_⟩
    rw [applies_eq_false_iff.mpr (hbefore r hr)]
    rfl

theorem find?_applies_eq_none :
    rules.find? (applies env) = none ↔ ∀ r ∈ rules, ¬r.Matches env := by
  rw [List.find?_eq_none]
  exact forall₂_congr fun r _ => applies_iff.not

/-- Rules give one display text and one color. -/
theorem annotate_eq_iff {p : Plan} :
    (display, color) = p.annotate env ↔ Annotates p.fields env p.rules display color := by
  constructor
  · intro h
    unfold annotate at h
    split at h
    · rename_i r hfind
      obtain ⟨hdisplay, hcolor⟩ := Prod.mk.inj h
      obtain ⟨before, after, hrules, hbefore, hr⟩ := find?_applies_eq_some.mp hfind
      rw [hrules]
      exact .first hbefore hr (displayText?_eq_iff.mp hdisplay.symm)
        (formulaText?_eq_iff.mp hcolor.symm)
    · rename_i hfind
      obtain ⟨rfl, rfl⟩ := Prod.mk.inj h
      exact .none (find?_applies_eq_none.mp hfind)
  · intro h
    generalize hrules : p.rules = rules at h
    unfold annotate
    rw [hrules]
    cases h with
    | none hnone => rw [find?_applies_eq_none.mpr hnone]
    | first hbefore hr hdisplay hcolor =>
        rw [find?_applies_eq_some.mpr ⟨_, _, rfl, hbefore, hr⟩]
        exact Prod.ext (displayText?_eq_iff.mpr hdisplay).symm (formulaText?_eq_iff.mpr hcolor).symm

/-- A revision keeps the first rule that matches. -/
theorem find?_applies_revision (h : Revision env rules rules') :
    rules.find? (applies env) = rules'.find? (applies env) := by
  induction h with
  | nil => rfl
  | keep r _ ih => rw [List.find?_cons, List.find?_cons, ih]
  | delete hr _ ih => rw [List.find?_cons_of_neg (applies_iff.not.mpr hr), ih]
  | insert hr _ ih => rw [List.find?_cons_of_neg (applies_iff.not.mpr hr), ih]
  | behind hr rules rules' =>
      rw [List.find?_cons_of_pos (applies_iff.mpr hr), List.find?_cons_of_pos (applies_iff.mpr hr)]

theorem annotate_revision {p : Plan} (h : Revision env p.rules rules) :
    { p with rules }.annotate env = p.annotate env := by
  unfold annotate
  rw [find?_applies_revision h]
  rfl

/-! ### Decoding under other rules -/

variable {p : Plan} {input : Bytes}

/-- Whatever the rules are, a plan decodes an input to the same fields and consumes as much of it, or
fails with the same error.  Display text and color are those of the rule of least index that
matches, the slots that were read given; and they stay when rules that do not match, or rules behind
one that does, are left out or put in. -/
theorem decode_rules (p : Plan) (input : Bytes) :
    (∀ rules e, { p with rules }.decode input = .error e ↔ p.decode input = .error e) ∧
    (∀ rules d, p.decode input = .ok d → ∃ d', { p with rules }.decode input = .ok d' ∧
      d'.fields = d.fields ∧ d'.consumed = d.consumed) ∧
    (∀ d, p.decode input = .ok d → ∃ slots,
      readFields input p.fields 0 [] = .ok (slots, d.consumed) ∧
      d.fields = record p.fields slots ∧
      ∀ display color, Annotates p.fields ⟨some input, slots⟩ p.rules display color ↔
        display = d.display ∧ color = d.color) ∧
    ∀ rules, (∀ slots consumed, readFields input p.fields 0 [] = .ok (slots, consumed) →
      Revision ⟨some input, slots⟩ p.rules rules) →
        { p with rules }.decode input = p.decode input := by
  refine ⟨?_, ?_, ?_, ?_⟩
  · intro rules e
    rw [decode_eq_error_iff, decode_eq_error_iff]
  · intro rules d hdecode
    obtain ⟨slots, hread, hfields, _⟩ := decode_eq_ok_iff_readFields.mp hdecode
    rw [hfields]
    exact exists_decode_of_readFields hread
  · intro d hdecode
    obtain ⟨slots, hread, hfields, hannotate⟩ := decode_eq_ok_iff_readFields.mp hdecode
    refine ⟨slots, hread, hfields, fun display color => ?_⟩
    rw [← annotate_eq_iff, ← hannotate, Prod.mk.injEq]
  · intro rules hrevision
    cases hdecode : p.decode input with
    | error e =>
        have hread : readFields input p.fields 0 [] = .error e := decode_eq_error_iff.mp hdecode
        exact decode_eq_error_iff.mpr hread
    | ok d =>
        obtain ⟨slots, hread, hfields, hannotate⟩ := decode_eq_ok_iff_readFields.mp hdecode
        refine decode_eq_ok_iff_readFields.mpr ⟨slots, hread, hfields, ?_⟩
        rw [hannotate, annotate_revision (hrevision slots d.consumed hread)]

/-- The first rule divides by the second field and the second is false where that is zero; the
color of the third cannot be computed then. -/
def dividing : Plan where
  fields := [.plain "a" (.int .u8), .plain "b" (.int .u8)]
  rules := [
    ⟨.binary .div (.field 0) (.field 1), some (.template [.text ['q']]), none⟩,
    ⟨.field 1, some (.template [.text ['b']]), none⟩,
    ⟨.field 0, some (.template [.text ['a', ' '], .hole 0]),
      some (.binary .div (.field 0) (.field 1))⟩,
    ⟨.const (.bool true), none, some (.const (.string "red"))⟩]

/-- The third rule alone makes the same of the input. -/
theorem decode_rules_dividing : ∃ d d', dividing.decode [4, 0] = .ok d ∧
    d.display = some "a 4" ∧ d.color = none ∧
    { dividing with rules := [dividing.rules[2]] }.decode [4, 0] = .ok d ∧
    { dividing with rules := [] }.decode [4, 0] = .ok d' ∧ d'.fields = d.fields := by
  have hrun : (dividing.decode [4, 0]).toOption.any (fun d =>
      decide (d.display = some "a 4" ∧ d.color = none)) = true := by
    decide +kernel
  obtain ⟨d, hdecode, hd⟩ := exists_eq_ok_of_any hrun
  obtain ⟨hdisplay, hcolor⟩ := of_decide_eq_true hd
  have hread : readFields [4, 0] dividing.fields 0 [] =
      .ok ([some (.int .u8 ⟨4, by decide⟩), some (.int .u8 ⟨0, by decide⟩)], 2) := rfl
  obtain ⟨-, hfields, -, hrules⟩ := decode_rules dividing [4, 0]
  obtain ⟨d', hdecode', hsame, -⟩ := hfields [] d hdecode
  refine ⟨d, d', hdecode, hdisplay, hcolor, ?_, hdecode', hsame⟩
  rw [← hdecode]
  refine hrules _ fun slots consumed h => ?_
  obtain ⟨rfl, -⟩ := Prod.mk.inj (Except.ok.inj (hread.symm.trans h))
  refine .delete ?_ (.delete ?_ (.behind ?_ _ _))
  · exact applies_eq_false_iff.mp rfl
  · exact applies_eq_false_iff.mp rfl
  · exact applies_iff.mp rfl

end Plan

end WireSpec
