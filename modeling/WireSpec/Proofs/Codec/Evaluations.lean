import WireSpec.Proofs.Codec.Occupation
import WireSpec.Proofs.Plan.Ruled
/-!
# The evaluations of decoding

A formula of a field is evaluated among the slots before the field, or these and its own, and the
formulas of rules are evaluated among all slots.  In a compiled plan these are always enough: the
fields that a formula refers to have slots by then, so no evaluation fails because of a reference.
A field fails with the error of an evaluation; a rule is silent about it, so for rules it is shown
which evaluations their result is made of.
-/

namespace WireSpec

namespace FieldPlan

/-- The evaluations that reading a field can come to, the slots before it given. -/
inductive Evaluates (f : FieldPlan) (input : Bytes) (slots : List (Option Value)) :
    Formula → Env → Prop where
  | length {size : Formula} (h : f.width = .dynamic size) :
      f.Evaluates input slots size ⟨some input, slots⟩
  | least {r : RangeCheck} (h : f.range = some r) (v : Value) :
      f.Evaluates input slots r.least ⟨some input, slots ++ [some v]⟩
  | greatest {r : RangeCheck} (h : f.range = some r) (v : Value) :
      f.Evaluates input slots r.greatest ⟨some input, slots ++ [some v]⟩
  | validate {condition : Formula} (h : f.validate = some condition) (v : Value) :
      f.Evaluates input slots condition ⟨some input, slots ++ [some v]⟩

variable {f : FieldPlan} {input : Bytes} {slots : List (Option Value)} {g : Formula} {env : Env}
  {name : String} {e : EvalError}

theorem Scoped.neverUnbound (hf : f.Scoped slots.length) (h : f.Evaluates input slots g env) :
    NeverUnbound (g.eval env) := by
  cases h with
  | length hwidth => exact Formula.neverUnbound_eval (hf.width g hwidth)
  | least hrange v =>
      have hwithin := (hf.range _ hrange).1
      exact Formula.neverUnbound_eval (hwithin.mono (by simp))
  | greatest hrange v =>
      have hwithin := (hf.range _ hrange).2
      exact Formula.neverUnbound_eval (hwithin.mono (by simp))
  | validate hvalidate v =>
      have hwithin := hf.validate g hvalidate
      exact Formula.neverUnbound_eval (hwithin.mono (by simp))

theorem evaluate_eq_error (h : f.evaluate env g = .error (.evaluation name (.formula e))) :
    g.eval env = .error e := by
  unfold evaluate at h
  cases heval : g.eval env with
  | ok v => simp [heval, Except.mapError] at h
  | error e' =>
      rw [heval] at h
      cases h
      rfl

theorem exists_evaluates_of_sizeAt {offset : Nat}
    (h : f.sizeAt input offset slots = .error (.evaluation name (.formula e))) :
    ∃ g env, f.Evaluates input slots g env ∧ g.eval env = .error e := by
  unfold sizeAt at h
  split at h
  · cases h
  · cases h
  · rename_i size hwidth
    rcases except_bind_eq_error.mp h with heval | ⟨v, _, hsize⟩
    · exact ⟨size, _, .length hwidth, evaluate_eq_error heval⟩
    · split at hsize
      · split at hsize <;> cases hsize
      · cases hsize

theorem exists_evaluates_of_checkRange {v : Value}
    (h : f.checkRange ⟨some input, slots ++ [some v]⟩ v = .error (.evaluation name (.formula e))) :
    ∃ g env, f.Evaluates input slots g env ∧ g.eval env = .error e := by
  unfold checkRange at h
  split at h
  · cases h
  · rename_i r hrange
    rcases except_bind_eq_error.mp h with heval | ⟨least, _, h⟩
    · exact ⟨r.least, _, .least hrange v, evaluate_eq_error heval⟩
    · rcases except_bind_eq_error.mp h with heval | ⟨greatest, _, h⟩
      · exact ⟨r.greatest, _, .greatest hrange v, evaluate_eq_error heval⟩
      · dsimp only at h
        split at h <;> cases h

theorem exists_evaluates_of_checkValid {v : Value}
    (h : f.checkValid ⟨some input, slots ++ [some v]⟩ = .error (.evaluation name (.formula e))) :
    ∃ g env, f.Evaluates input slots g env ∧ g.eval env = .error e := by
  unfold checkValid at h
  split at h
  · cases h
  · rename_i condition hvalidate
    rcases except_bind_eq_error.mp h with heval | ⟨x, _, h⟩
    · exact ⟨condition, _, .validate hvalidate v, evaluate_eq_error heval⟩
    · split at h <;> cases h

theorem decode_ne_evaluation {raw : Bytes} {fault : Fault} :
    f.decode raw ≠ .error (.evaluation name fault) := by
  intro h
  unfold decode at h
  split at h <;> try cases h
  split at h <;> cases h

theorem exists_evaluates_of_read {offset : Nat}
    (h : f.read input offset slots = .error (.evaluation name (.formula e))) :
    ∃ g env, f.Evaluates input slots g env ∧ g.eval env = .error e := by
  unfold read at h
  split at h
  · cases h
  · rcases except_bind_eq_error.mp h with hsize | ⟨size, _, h⟩
    · exact exists_evaluates_of_sizeAt hsize
    · split at h
      · cases h
      · rcases except_bind_eq_error.mp h with hdecode | ⟨v, _, h⟩
        · exact absurd hdecode decode_ne_evaluation
        · rcases except_bind_eq_error.mp h with hrange | ⟨_, _, h⟩
          · exact exists_evaluates_of_checkRange hrange
          · rcases except_bind_eq_error.mp h with hvalid | ⟨_, _, h⟩
            · exact exists_evaluates_of_checkValid hvalid
            · cases h

end FieldPlan

namespace Plan

/-- The evaluations that decoding an input can come to: those of a field, once the fields before it
are read, and those of the rules, once all are. -/
inductive Evaluates (p : Plan) (input : Bytes) : Formula → Env → Prop where
  | field {place offset : Nat} {slots : List (Option Value)} {g : Formula} {env : Env}
      (hplace : place < p.fields.length)
      (hread : readFields input (p.fields.take place) 0 [] = .ok (slots, offset))
      (h : p.fields[place].Evaluates input slots g env) : p.Evaluates input g env
  | condition {slots : List (Option Value)} {stop : Nat} {r : Rule}
      (hread : readFields input p.fields 0 [] = .ok (slots, stop)) (hr : r ∈ p.rules) :
      p.Evaluates input r.condition ⟨some input, slots⟩
  | display {slots : List (Option Value)} {stop : Nat} {r : Rule} {g : Formula}
      (hread : readFields input p.fields 0 [] = .ok (slots, stop)) (hr : r ∈ p.rules)
      (h : r.display = some (.formula g)) : p.Evaluates input g ⟨some input, slots⟩
  | color {slots : List (Option Value)} {stop : Nat} {r : Rule} {g : Formula}
      (hread : readFields input p.fields 0 [] = .ok (slots, stop)) (hr : r ∈ p.rules)
      (h : r.color = some g) : p.Evaluates input g ⟨some input, slots⟩

variable {p : Plan} {input : Bytes} {fields : List FieldPlan} {before slots : List (Option Value)}
  {start stop : Nat} {g : Formula} {env : Env} {name : String} {e : EvalError}

theorem length_readFields (h : readFields input fields start before = .ok (slots, stop)) :
    slots.length = before.length + fields.length := by
  induction fields generalizing start before with
  | nil =>
      cases h
      rfl
  | cons f rest ih =>
      obtain ⟨⟨slot, next⟩, _, hrest⟩ := except_bind_eq_ok.mp h
      have hlength := ih hrest
      rw [List.length_append, List.length_singleton] at hlength
      rw [hlength, List.length_cons, Nat.add_assoc, Nat.add_comm 1]

theorem length_slots (h : readFields input fields 0 [] = .ok (slots, stop)) :
    slots.length = fields.length := by
  simpa using length_readFields h

theorem readFields_concat {f : FieldPlan} {slot : Option Value} {next : Nat}
    (h : readFields input fields start before = .ok (slots, stop))
    (hf : f.read input stop slots = .ok (slot, next)) :
    readFields input (fields ++ [f]) start before = .ok (slots ++ [slot], next) := by
  induction fields generalizing start before with
  | nil =>
      cases h
      exact except_bind_eq_ok.mpr ⟨_, hf, rfl⟩
  | cons first rest ih =>
      obtain ⟨⟨slot', next'⟩, hfirst, hrest⟩ := except_bind_eq_ok.mp h
      exact except_bind_eq_ok.mpr ⟨_, hfirst, ih hrest⟩

/-- No evaluation of decoding fails because of a reference, if all references are in scope. -/
theorem neverUnbound_of_evaluates
    (hfields : ∀ i (hi : i < p.fields.length), p.fields[i].Scoped i)
    (hrules : ∀ r ∈ p.rules, r.Scoped p.fields.length) (h : p.Evaluates input g env) :
    NeverUnbound (g.eval env) := by
  cases h with
  | @field place _ slots _ _ hplace hread h =>
      have hlength : slots.length = place := by
        rw [length_slots hread, List.length_take_of_le (Nat.le_of_lt hplace)]
      have hscoped : p.fields[place].Scoped slots.length := hlength ▸ hfields place hplace
      exact hscoped.neverUnbound h
  | condition hread hr =>
      exact Formula.neverUnbound_eval (length_slots hread ▸ (hrules _ hr).condition)
  | display hread hr hdisplay =>
      exact Formula.neverUnbound_eval (length_slots hread ▸ (hrules _ hr).display _ hdisplay)
  | color hread hr hcolor =>
      exact Formula.neverUnbound_eval (length_slots hread ▸ (hrules _ hr).color _ hcolor)

theorem exists_evaluates_of_readFields {front rest : List FieldPlan}
    (hp : p.fields = front ++ rest) (hfront : readFields input front 0 [] = .ok (slots, start))
    (h : readFields input rest start slots = .error (.evaluation name (.formula e))) :
    ∃ g env, p.Evaluates input g env ∧ g.eval env = .error e := by
  -- By induction on the fields to be read, with those in front of them read already.
  induction rest generalizing front slots start with
  | nil => cases h
  | cons f rest ih =>
      rcases except_bind_eq_error.mp h with hread | ⟨⟨slot, next⟩, hread, hrest⟩
      · obtain ⟨g, env, hevaluates, heval⟩ := FieldPlan.exists_evaluates_of_read hread
        have hplace : front.length < p.fields.length := by simp [hp]
        have hfield : p.fields[front.length] = f := by simp [hp]
        have htake : p.fields.take front.length = front := by simp [hp]
        refine ⟨g, env, .field hplace (htake ▸ hfront) ?_, heval⟩
        rwa [hfield]
      · have hnext : p.fields = front ++ [f] ++ rest := by simp [hp]
        exact ih hnext (readFields_concat hfront hread) hrest

theorem exists_evaluates_of_decode
    (h : p.decode input = .error (.evaluation name (.formula e))) :
    ∃ g env, p.Evaluates input g env ∧ g.eval env = .error e :=
  exists_evaluates_of_readFields (List.nil_append _).symm rfl (decode_eq_error_iff.mp h)

end Plan

/-! ### What annotating evaluates -/

/-- The text of a formula where `eval` tells the values of formulas. -/
def Formula.textBy (eval : Formula → Except EvalError Operand) (g : Formula) : Option String :=
  (eval g).toOption.map Operand.text

def Display.textBy (eval : Formula → Except EvalError Operand) (fields : List FieldPlan)
    (slots : List (Option Value)) : Display → Option String
  | .template t => some (t.render fields slots)
  | .formula g => g.textBy eval

/-- The formulas of what a rule displays.  A template has none. -/
def Rule.shown (r : Rule) : List Formula :=
  (match r.display with
    | some (.formula g) => [g]
    | _ => []) ++ r.color.toList

namespace Plan

/-- Display text and color of the first rule that applies, where `eval` tells the values of
formulas. -/
def annotateBy (eval : Formula → Except EvalError Operand) (fields : List FieldPlan)
    (slots : List (Option Value)) : List Rule → Option String × Option String
  | [] => (none, none)
  | r :: rest =>
      if (eval r.condition).toOption.any Operand.truthy then
        (r.display.bind (Display.textBy eval fields slots), r.color.bind (Formula.textBy eval))
      else annotateBy eval fields slots rest

/-- The formulas that annotating evaluates: the conditions up to the first rule that applies, and
what this rule shows. -/
def evaluated (env : Env) : List Rule → List Formula
  | [] => []
  | r :: rest => r.condition :: if applies env r then r.shown else evaluated env rest

variable {fields : List FieldPlan} {rules : List Rule} {env : Env} {r : Rule}
  {eval : Formula → Except EvalError Operand}

theorem applies_eq (env : Env) (r : Rule) :
    applies env r = (r.condition.eval env).toOption.any Operand.truthy := by
  unfold applies
  cases r.condition.eval env <;> rfl

theorem textBy_eq {g : Formula} (h : eval g = g.eval env) :
    g.textBy eval = formulaText? env g := by
  unfold Formula.textBy formulaText?
  rw [h]
  cases g.eval env <;> rfl

theorem textBy_display (p : Plan) (h : ∀ g ∈ r.shown, eval g = g.eval env) :
    r.display.bind (Display.textBy eval p.fields env.slots) =
      r.display.bind (p.displayText? env) := by
  unfold Rule.shown at h
  match hdisplay : r.display with
  | none => rfl
  | some (.template t) => rfl
  | some (.formula g) => exact textBy_eq (h g (by simp [hdisplay]))

theorem textBy_color (h : ∀ g ∈ r.shown, eval g = g.eval env) :
    r.color.bind (Formula.textBy eval) = r.color.bind (formulaText? env) := by
  cases hcolor : r.color with
  | none => rfl
  | some g => exact textBy_eq (h g (by simp [Rule.shown, hcolor]))

/-- Only these evaluations have a part in the annotation, so with others that agree on them it is the
same. -/
theorem annotateBy_eq_annotate (h : ∀ g ∈ evaluated env rules, eval g = g.eval env) :
    annotateBy eval fields env.slots rules = { fields, rules : Plan }.annotate env := by
  -- By induction on the rules, of which those in front do not apply.
  induction rules with
  | nil => rfl
  | cons r rest ih =>
      rw [evaluated, List.forall_mem_cons] at h
      obtain ⟨hcondition, hlater⟩ := h
      rw [annotateBy, hcondition, ← applies_eq]
      unfold annotate
      cases happlies : applies env r with
      | true =>
          rw [happlies, if_pos rfl] at hlater
          rw [List.find?_cons_of_pos happlies, if_pos rfl]
          exact Prod.ext (textBy_display ⟨fields, r :: rest⟩ hlater) (textBy_color hlater)
      | false =>
          rw [happlies, if_neg Bool.false_ne_true] at hlater
          rw [List.find?_cons_of_neg (by simp [happlies]), if_neg Bool.false_ne_true]
          exact ih hlater

variable {p : Plan} {input : Bytes} {slots : List (Option Value)} {stop : Nat} {g : Formula}

theorem evaluates_of_mem_shown (hread : readFields input p.fields 0 [] = .ok (slots, stop))
    (hr : r ∈ p.rules) (hg : g ∈ r.shown) : p.Evaluates input g ⟨some input, slots⟩ := by
  rcases List.mem_append.mp hg with hdisplay | hcolor
  · split at hdisplay
    · rename_i shown hshown
      obtain rfl := List.mem_singleton.mp hdisplay
      exact .display hread hr hshown
    · cases hdisplay
  · exact .color hread hr (Option.mem_toList.mp hcolor)

/-- What annotating evaluates is among the evaluations of decoding. -/
theorem evaluates_of_mem_evaluated (hread : readFields input p.fields 0 [] = .ok (slots, stop))
    (hrules : rules ⊆ p.rules) (hg : g ∈ evaluated ⟨some input, slots⟩ rules) :
    p.Evaluates input g ⟨some input, slots⟩ := by
  induction rules with
  | nil => cases hg
  | cons r rest ih =>
      obtain ⟨hr, hrest⟩ := List.cons_subset.mp hrules
      rcases List.mem_cons.mp hg with rfl | hg
      · exact .condition hread hr
      · split at hg
        · exact evaluates_of_mem_shown hread hr hg
        · exact ih hrest hg

end Plan

/-! ### Compiled plans -/

/-- In a compiled plan, every reference is to a field that the source names in its place, before the
field whose formula it is in or, in a validation, at it.  So no evaluation of decoding fails because
the input or the slot of a field is missing, and the annotation is the same whatever such an
evaluation would give. -/
theorem resolves_of_compile {source : String} {o : Options} {d : Decoder}
    (h : compile source o = .ok d) :
    ∃ (p : Protocol) (m : MessageDecl),
      (ParsedSource.ofScan (Scan.source source)).protocol = some p ∧
      (p.selectMessage o).value = some m ∧
      (∀ i (hi : i < d.plan.fields.length), d.plan.fields[i].Scoped i ∧
        ∃ decl, (allFields p m).value[i]? = some decl ∧ decl.name = d.plan.fields[i].name ∧
          d.plan.fields[i].Resolves decl ((d.plan.fields.map (·.name)).take i)) ∧
      (∀ r ∈ d.plan.rules, r.Scoped d.plan.fields.length ∧
        ∃ decl ∈ p.rules.getD [], r.Resolves decl (d.plan.fields.map (·.name))) ∧
      ∀ input, (∀ f env, d.plan.Evaluates input f env → NeverUnbound (f.eval env)) ∧
        (∀ name e, d.plan.decode input = .error (.evaluation name (.formula e)) →
          ¬e.IsUnbound) ∧
        ∀ slots stop eval, Plan.readFields input d.plan.fields 0 [] = .ok (slots, stop) →
          (∀ f : Formula, NeverUnbound (f.eval ⟨some input, slots⟩) →
            eval f = f.eval ⟨some input, slots⟩) →
          Plan.annotateBy eval d.plan.fields slots d.plan.rules =
            d.plan.annotate ⟨some input, slots⟩ := by
  obtain ⟨p, m, hparsed, hselected, hplan, _⟩ := exists_plan_of_compile h
  have hfields := (wellFormed_of_compile h).scopes
  have hresolves : ∀ i (hi : i < d.plan.fields.length), ∃ decl,
      (allFields p m).value[i]? = some decl ∧ decl.name = d.plan.fields[i].name ∧
        d.plan.fields[i].Resolves decl ((d.plan.fields.map (·.name)).take i) := by
    rw [hplan]
    exact Context.resolves_field
  have hrules : ∀ r ∈ d.plan.rules, ∃ decl ∈ p.rules.getD [],
      r.Resolves decl (d.plan.fields.map (·.name)) := by
    rw [hplan]
    exact fun r hr => Context.resolves_rules hr
  have hscoped : ∀ r ∈ d.plan.rules, r.Scoped d.plan.fields.length := by
    intro r hr
    obtain ⟨decl, _, hresolves⟩ := hrules r hr
    simpa using hresolves.scoped
  have hbound : ∀ input f env, d.plan.Evaluates input f env → NeverUnbound (f.eval env) :=
    fun input f env => Plan.neverUnbound_of_evaluates hfields hscoped
  refine ⟨p, m, hparsed, hselected, ?_, ?_, fun input => ⟨hbound input, ?_, ?_⟩⟩
  · exact fun i hi => ⟨hfields i hi, hresolves i hi⟩
  · exact fun r hr => ⟨hscoped r hr, hrules r hr⟩
  · intro name e hdecode
    obtain ⟨g, env, hevaluates, heval⟩ := Plan.exists_evaluates_of_decode hdecode
    exact hbound input g env hevaluates e heval
  · intro slots stop eval hread heval
    refine Plan.annotateBy_eq_annotate fun g hg => heval g ?_
    exact hbound input g _ (Plan.evaluates_of_mem_evaluated hread (List.Subset.refl _) hg)

/-- A message with an inherited field and a rule; the last field can come to an index that is out of
bounds. -/
def inheritedSource : String :=
  "protocol P \x7b message H \x7b uint8 n; \x7d message M extends H \x7b bytes data length(n) " ++
    "validate(data.length == n && this[0] == n); uint8 last range(0, data[0] / n); \x7d " ++
    "parser \x7b when (n > last) \x7b display \"\x7bdata\x7d of \x7bn\x7d\"; " ++
    "color data[last]; \x7d \x7d \x7d"

theorem resolves_of_compile_inherited : ∃ d p,
    compile inheritedSource { message := some "M" } = .ok d ∧
      (ParsedSource.ofScan (Scan.source inheritedSource)).protocol = some p ∧
      d.plan.rules.map (fun r => (r.condition.places, r.display.map Display.places)) =
        [([0, 2], some [1, 0])] ∧
      (∀ r ∈ d.plan.rules, ∃ decl ∈ p.rules.getD [], r.Resolves decl ["n", "data", "last"]) ∧
      ∃ e, d.plan.decode [0, 1] = .error (.evaluation "last" (.formula e)) ∧ ¬e.IsUnbound := by
  have hrun : (compile inheritedSource { message := some "M" }).toOption.any (fun d =>
      decide (d.plan.fields.map (·.name) = ["n", "data", "last"] ∧
        d.plan.rules.map (fun r => (r.condition.places, r.display.map Display.places)) =
          [([0, 2], some [1, 0])]) &&
        match d.plan.decode [0, 1] with
        | .error (.evaluation name (.formula _)) => name == "last"
        | _ => false) = true := by
    decide +kernel
  obtain ⟨d, hcompile, hrun⟩ := exists_eq_ok_of_any hrun
  obtain ⟨hplaces, hrun⟩ := Bool.and_eq_true_iff.mp hrun
  obtain ⟨hnames, hplaces⟩ := of_decide_eq_true hplaces
  obtain ⟨p, _, hparsed, _, _, hrules, hdecode⟩ := resolves_of_compile hcompile
  refine ⟨d, p, hcompile, hparsed, hplaces, ?_, ?_⟩
  · rw [← hnames]
    exact fun r hr => (hrules r hr).2
  · split at hrun
    · rename_i name e herror
      obtain rfl := eq_of_beq hrun
      exact ⟨e, herror, (hdecode [0, 1]).2.1 "last" e herror⟩
    · cases hrun

end WireSpec
