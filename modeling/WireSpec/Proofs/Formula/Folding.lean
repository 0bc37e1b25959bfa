import WireSpec.Proofs.Formula.Identifiers
/-!
# Computing constants

Binding computes the constant parts of a formula on the way, from the innermost outward.  What comes
of it has the value that the formula would have had without, in every environment and down to the
error; and a formula that refers to nothing is computed as a whole.
-/

namespace WireSpec

namespace Formula

/-- Neither a field nor the whole message occurs in the formula. -/
def IsClosed (f : Formula) : Prop := f.places = [] ∧ f.usesInput = false

theorem isClosed_binary {op : BinaryOp} {l r : Formula} :
    (binary op l r).IsClosed ↔ l.IsClosed ∧ r.IsClosed := by
  simp only [IsClosed, places, usesInput, List.append_eq_nil_iff, Bool.or_eq_false_iff]
  exact and_and_and_comm

theorem isClosed_index {o i : Formula} : (index o i).IsClosed ↔ o.IsClosed ∧ i.IsClosed := by
  simp only [IsClosed, places, usesInput, List.append_eq_nil_iff, Bool.or_eq_false_iff]
  exact and_and_and_comm

theorem isClosed_slice {o s e : Formula} :
    (slice o s e).IsClosed ↔ (o.IsClosed ∧ s.IsClosed) ∧ e.IsClosed := by
  simp only [IsClosed, places, usesInput, List.append_eq_nil_iff, Bool.or_eq_false_iff]
  constructor
  · rintro ⟨⟨⟨ho, hs⟩, he⟩, ⟨ho', hs'⟩, he'⟩
    exact ⟨⟨⟨ho, ho'⟩, hs, hs'⟩, he, he'⟩
  · rintro ⟨⟨⟨ho, ho'⟩, hs, hs'⟩, he, he'⟩
    exact ⟨⟨⟨ho, hs⟩, he⟩, ⟨ho', hs'⟩, he'⟩

/-- A closed formula has the same value everywhere. -/
theorem IsClosed.eval_eq {f : Formula} (h : f.IsClosed) (env env' : Env) :
    f.eval env = f.eval env' := by
  refine eval_congr ⟨?_, ?_⟩
  · simp [h.2]
  · simp [h.1]

theorem exists_const_of_constant? {f : Formula} (h : f.constant?.isSome = true) :
    ∃ v, f = .const v := by
  cases f <;> simp [constant?] at h ⊢

theorem isClosed_of_isReady {f : Formula} (h : f.isReady = true) : f.IsClosed := by
  cases f with
  | const | field | input => cases h
  | unary op e =>
      obtain ⟨v, rfl⟩ := exists_const_of_constant? h
      exact ⟨rfl, rfl⟩
  | binary op l r =>
      obtain ⟨hl, hr⟩ := Bool.and_eq_true_iff.mp h
      obtain ⟨v, rfl⟩ := exists_const_of_constant? hl
      obtain ⟨w, rfl⟩ := exists_const_of_constant? hr
      exact ⟨rfl, rfl⟩
  | length e =>
      obtain ⟨v, rfl⟩ := exists_const_of_constant? h
      exact ⟨rfl, rfl⟩
  | index o i =>
      obtain ⟨ho, hi⟩ := Bool.and_eq_true_iff.mp h
      obtain ⟨v, rfl⟩ := exists_const_of_constant? ho
      obtain ⟨w, rfl⟩ := exists_const_of_constant? hi
      exact ⟨rfl, rfl⟩
  | slice o s e =>
      obtain ⟨hos, he⟩ := Bool.and_eq_true_iff.mp h
      obtain ⟨ho, hs⟩ := Bool.and_eq_true_iff.mp hos
      obtain ⟨u, rfl⟩ := exists_const_of_constant? ho
      obtain ⟨v, rfl⟩ := exists_const_of_constant? hs
      obtain ⟨w, rfl⟩ := exists_const_of_constant? he
      exact ⟨rfl, rfl⟩
  | call name function e =>
      obtain ⟨v, rfl⟩ := exists_const_of_constant? h
      exact ⟨rfl, rfl⟩

/-- The first formula is what remains of the second once its constant parts are computed. -/
structure Computes (f g : Formula) : Prop where
  eval_eq : ∀ env, f.eval env = g.eval env
  constant : g.IsClosed → ∃ v, f = .const v

theorem Computes.refl {f : Formula} (h : f.IsClosed → ∃ v, f = .const v) : f.Computes f :=
  ⟨fun _ => rfl, h⟩

theorem computes_const (v : Operand) : (const v).Computes (const v) := .refl fun _ => ⟨v, rfl⟩

theorem Computes.isSome_constant? {f g : Formula} (h : f.Computes g) (hg : g.IsClosed) :
    f.constant?.isSome = true := by
  obtain ⟨v, rfl⟩ := h.constant hg
  rfl

end Formula

open Formula

namespace Context

variable {c : Context} {scope : Scope} {position : Position}

section

variable {f g : Formula}

theorem eval_fold (h : (fold position f).problems = []) (env : Env) :
    (fold position f).value.eval env = f.eval env := by
  unfold fold at h ⊢
  split
  · rename_i hready
    have hclosed := (isClosed_of_isReady hready).eval_eq env .constant
    split
    · rename_i v hv
      exact hv.symm.trans hclosed.symm
    · rename_i e he
      simp [hready, he, invalid, Checked.reportAt, Checked.report] at h
  · rfl

theorem exists_const_of_fold (hready : f.isReady = true) :
    ∃ v, (fold position f).value = .const v := by
  unfold fold
  rw [if_pos hready]
  split <;> exact ⟨_, rfl⟩

/-- Folding a formula whose parts are computed computes it as a whole. -/
theorem computes_fold (h : (fold position f).problems = [])
    (heval : ∀ env, f.eval env = g.eval env) (hready : g.IsClosed → f.isReady = true) :
    (fold position f).value.Computes g :=
  ⟨fun env => (eval_fold h env).trans (heval env),
    fun hg => exists_const_of_fold (hready hg)⟩

end

/-- What is bound with folding computes what is bound without, and neither has a problem. -/
structure Folded (folded plain : Checked Formula) : Prop where
  problems : plain.problems = []
  computes : folded.value.Computes plain.value

theorem settleWith_pure (position : Position) (f : Checked Formula) :
    settleWith (fun _ formula => pure formula) position f = f := by
  unfold settleWith
  split
  · rename_i hnone
    obtain ⟨value, problems⟩ := f
    obtain rfl := List.isEmpty_iff.mp hnone
    rfl
  · rfl

theorem problems_of_settleWith {f : Checked Formula}
    (h : (settleWith fold position f).problems = []) :
    f.problems = [] ∧ settleWith fold position f = fold position f.value := by
  unfold settleWith at h ⊢
  cases hf : f.problems with
  | nil => exact ⟨rfl, rfl⟩
  | cons p ps => simp [hf] at h

/-- The step from the parts of an expression to the whole.  Of the parts it is known that they have
no problems; `hparts` says what this gives for the operator. -/
theorem folded_settleWith {f g : Checked Formula}
    (h : (settleWith fold position f).problems = [])
    (hparts : f.problems = [] → g.problems = [] ∧ (∀ env, f.value.eval env = g.value.eval env) ∧
      (g.value.IsClosed → f.value.isReady = true)) :
    Folded (settleWith fold position f)
      (settleWith (fun _ formula => pure formula) position g) := by
  obtain ⟨hf, hsettle⟩ := problems_of_settleWith h
  obtain ⟨hg, heval, hready⟩ := hparts hf
  rw [hsettle] at h ⊢
  rw [settleWith_pure]
  exact ⟨hg, computes_fold h heval hready⟩

/-- The step for an operator with one part. -/
theorem folded_settleWith_one {x y : Checked Formula} {w : Formula → Formula}
    (h : (settleWith fold position (do return w (← x))).problems = [])
    (hx : x.problems = [] → Folded x y)
    (heval : ∀ f g env, f.eval env = g.eval env → (w f).eval env = (w g).eval env)
    (hready : ∀ f : Formula, f.constant?.isSome = true → (w f).isReady = true)
    (hclosed : ∀ g : Formula, (w g).IsClosed → g.IsClosed) :
    Folded (settleWith fold position (do return w (← x)))
      (settleWith (fun _ formula => pure formula) position (do return w (← y))) := by
  apply folded_settleWith h
  intro hparts
  simp only [Checked.problems_bind, Checked.problems_pure, List.append_nil] at hparts ⊢
  obtain ⟨hproblems, hcomputes⟩ := hx hparts
  refine ⟨hproblems, fun env => heval _ _ env (hcomputes.eval_eq env), fun hg => ?_⟩
  exact hready _ (hcomputes.isSome_constant? (hclosed _ hg))

theorem computes_of_lookup {name : String} {f : Formula} (h : c.lookup scope name = .bound f) :
    f.Computes f := by
  have hmember : c.lookupMember name = .bound f → f.Computes f := by
    intro hmember
    unfold lookupMember at hmember
    split at hmember <;> cases hmember
    exact computes_const _
  unfold lookup at h
  split at h
  · split at h
    · cases h
      exact .refl fun hclosed => by cases hclosed.2
    · split at h
      · cases h
        exact .refl fun hclosed => by cases hclosed.1
      · exact hmember h
  · split at h
    · cases h
      exact computes_const _
    · exact hmember h

theorem folded_bindName {name : String} (h : (c.bindName scope position name).problems = []) :
    Folded (c.bindName scope position name) (c.bindName scope position name) := by
  refine ⟨h, ?_⟩
  unfold bindName at h ⊢
  split at h
  · rename_i f hf
    exact computes_of_lookup hf
  · cases h
  · split at h
    · cases h
    · split at h <;> cases h

/-- An expression that is bound with folding and without a problem computes what it is bound to
without folding. -/
theorem folded_bindWith (e : Expr) (h : (bindWith fold c scope e).problems = []) :
    Folded (bindWith fold c scope e) (bindWith (fun _ formula => pure formula) c scope e) := by
  -- The parts are computed by induction; the operator is then computed if they are constants.
  cases e with
  | literal => exact ⟨rfl, computes_const _⟩
  | name position word => exact folded_bindName h
  | unary position op operand =>
      apply folded_settleWith_one h (folded_bindWith operand)
      · intro f g env heval
        simp only [eval, heval]
      · exact fun _ hconstant => hconstant
      · exact fun _ hclosed => hclosed
  | binary op left right =>
      apply folded_settleWith h
      intro hparts
      simp only [Checked.problems_bind, Checked.problems_pure, List.append_nil,
        List.append_eq_nil_iff] at hparts ⊢
      obtain ⟨hl, hleft⟩ := folded_bindWith left hparts.1
      obtain ⟨hr, hright⟩ := folded_bindWith right hparts.2
      refine ⟨⟨hl, hr⟩, fun env => ?_, fun hclosed => ?_⟩
      · exact eval_binary_congr op (hleft.eval_eq env) (hright.eval_eq env)
      · obtain ⟨hcl, hcr⟩ := isClosed_binary.mp hclosed
        exact Bool.and_eq_true_iff.mpr
          ⟨hleft.isSome_constant? hcl, hright.isSome_constant? hcr⟩
  | member object word =>
      unfold bindWith at h ⊢
      split at h
      · split at h
        · exact ⟨rfl, computes_const _⟩
        · cases h
      · split at h
        · rename_i hlength
          simp only [if_pos hlength]
          apply folded_settleWith_one h (folded_bindWith object)
          · intro f g env heval
            simp only [eval, heval]
          · exact fun _ hconstant => hconstant
          · exact fun _ hclosed => hclosed
        · cases h
  | index object index =>
      apply folded_settleWith h
      intro hparts
      simp only [Checked.problems_bind, Checked.problems_pure, List.append_nil,
        List.append_eq_nil_iff] at hparts ⊢
      obtain ⟨ho, hobject⟩ := folded_bindWith object hparts.1
      obtain ⟨hi, hindex⟩ := folded_bindWith index hparts.2
      refine ⟨⟨ho, hi⟩, fun env => ?_, fun hclosed => ?_⟩
      · simp only [Checked.value_bind, Checked.value_pure, eval, hobject.eval_eq, hindex.eval_eq]
      · obtain ⟨hco, hci⟩ := isClosed_index.mp hclosed
        exact Bool.and_eq_true_iff.mpr
          ⟨hobject.isSome_constant? hco, hindex.isSome_constant? hci⟩
  | slice object start stop =>
      apply folded_settleWith h
      intro hparts
      simp only [Checked.problems_bind, Checked.problems_pure, List.append_nil,
        List.append_eq_nil_iff] at hparts ⊢
      obtain ⟨ho, hobject⟩ := folded_bindWith object hparts.1
      obtain ⟨hs, hstart⟩ := folded_bindWith start hparts.2.1
      obtain ⟨he, hstop⟩ := folded_bindWith stop hparts.2.2
      refine ⟨⟨ho, hs, he⟩, fun env => ?_, fun hclosed => ?_⟩
      · simp only [Checked.value_bind, Checked.value_pure, eval, hobject.eval_eq,
          hstart.eval_eq, hstop.eval_eq]
      · obtain ⟨⟨hco, hcs⟩, hce⟩ := isClosed_slice.mp hclosed
        exact Bool.and_eq_true_iff.mpr ⟨Bool.and_eq_true_iff.mpr
          ⟨hobject.isSome_constant? hco, hstart.isSome_constant? hcs⟩,
            hstop.isSome_constant? hce⟩
  | call position word arguments =>
      unfold bindWith at h ⊢
      split at h
      · cases h
      · split at h
        · rename_i argument
          apply folded_settleWith_one h (folded_bindWith argument)
          · intro f g env heval
            simp only [eval, heval]
          · exact fun _ hconstant => hconstant
          · exact fun _ hclosed => hclosed
        · cases h

/-- An expression that is bound without a problem has the value that it has when nothing is
computed, in every environment; and if it refers to no field and not to the message, it is bound to
a constant. -/
theorem eval_bind_eq_eval_bindOnly (e : Expr) (h : (c.bind scope e).problems = []) :
    (c.bindOnly scope e).problems = [] ∧
      (∀ env, (c.bind scope e).value.eval env = (c.bindOnly scope e).value.eval env) ∧
      ((c.bindOnly scope e).value.places = [] → (c.bindOnly scope e).value.usesInput = false →
        ∃ v, (c.bind scope e).value = .const v) := by
  obtain ⟨hproblems, hcomputes⟩ := folded_bindWith e h
  exact ⟨hproblems, hcomputes.eval_eq, fun hplaces hinput => hcomputes.constant ⟨hplaces, hinput⟩⟩

/-- With a member `A` of value two, the expression `"ab".length * A + n`, of which `n` is a field. -/
def mixedContext : Context := ⟨.standard, ⟨["E"], [("E", [("A", .ofUInt64 2)])]⟩⟩

def mixedProduct : Expr :=
  .binary .mul (.member (.literal .start (.string "ab")) "length") (.name .start "A")

def mixedSum : Expr := .binary .add mixedProduct (.name .start "n")

theorem eval_bind_eq_eval_bindOnly_mixed :
    (mixedContext.bind (.fields ["n"]) mixedSum).problems = [] ∧
      (∀ env, (mixedContext.bind (.fields ["n"]) mixedSum).value.eval env =
        (mixedContext.bindOnly (.fields ["n"]) mixedSum).value.eval env) ∧
      ((mixedContext.bindOnly (.fields ["n"]) mixedProduct).value.places = [] ∧
        (mixedContext.bindOnly (.fields ["n"]) mixedProduct).value.usesInput = false) ∧
      ∃ v, (mixedContext.bind (.fields ["n"]) mixedProduct).value = .const v := by
  have hsum : (mixedContext.bind (.fields ["n"]) mixedSum).problems = [] := by decide +kernel
  have hproduct : (mixedContext.bind (.fields ["n"]) mixedProduct).problems = [] := by
    decide +kernel
  obtain ⟨_, heval, _⟩ := eval_bind_eq_eval_bindOnly mixedSum hsum
  obtain ⟨_, _, hconst⟩ := eval_bind_eq_eval_bindOnly mixedProduct hproduct
  exact ⟨hsum, heval, ⟨rfl, rfl⟩, hconst rfl rfl⟩

end Context

end WireSpec
