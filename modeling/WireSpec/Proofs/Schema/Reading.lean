import WireSpec.Proofs.Schema.Following
/-!
# Outcomes of reading a phrase

Where the allowance suffices, a phrase is read as the expression it stands for, and reading stops
behind it.  Where it does not, the only problem is that the expression is nested too deeply, and the
rest of the phrase is passed over.
-/

namespace WireSpec.Grammar

open Expression WireSpec.Parser Skip

/-- All that is wrong is that the expression is nested too deeply. -/
def OnlyTooDeep (problems : List (Position × SyntaxError)) : Prop :=
  ∀ p ∈ problems, p.2 = .nestedTooDeeply

theorem OnlyTooDeep.append {xs ys : List (Position × SyntaxError)} (hxs : OnlyTooDeep xs)
    (hys : OnlyTooDeep ys) : OnlyTooDeep (xs ++ ys) := by
  intro p hp
  rcases List.mem_append.mp hp with hp | hp
  · exact hxs p hp
  · exact hys p hp

/-- The outcome of reading a phrase in front of `rest`, where `enough` says that the allowance
suffices. -/
structure Reads (o : Outcome Expr) (value : Expr) (enough : Prop) (rest : List Token) : Prop where
  only : OnlyTooDeep o.problems
  clean : o.problems = [] ↔ enough
  value : o.problems = [] → o.value.bare = value
  rest : o.rest = rest ∨ o.problems ≠ [] ∧ o.rest = past subexpression 0 rest

/-- The outcome of passing over the rest of a phrase in front of `rest`. -/
structure Stuck (o : Outcome Expr) (rest : List Token) : Prop where
  only : OnlyTooDeep o.problems
  unclean : o.problems ≠ []
  rest : o.rest = past subexpression 0 rest

variable {o : Outcome Expr} {value : Expr} {enough : Prop} {rest rest' : List Token}
  {close : Position}

theorem stuck_of_past_eq {tokens : List Token} (e : Expr) (position : Position)
    (h : past subexpression 0 tokens = past subexpression 0 rest) :
    Stuck ⟨e, past subexpression 0 tokens, [(position, .nestedTooDeeply)]⟩ rest :=
  ⟨by simp [OnlyTooDeep], by simp, h⟩

theorem Stuck.reads (h : Stuck o rest) (henough : ¬enough) : Reads o value enough rest :=
  ⟨h.only, iff_of_false h.unclean henough, fun hclean => absurd hclean h.unclean,
    Or.inr ⟨h.unclean, h.rest⟩⟩

/-- In front of a closer it makes no difference whether something was passed over. -/
theorem Reads.rest_eq (h : Reads o value enough rest) (hrest : Closed rest) : o.rest = rest := by
  rcases h.rest with heq | ⟨_, heq⟩
  · exact heq
  · rw [heq, hrest.past_eq]

theorem Reads.exists_eq (h : Reads o value enough rest) (hrest : Closed rest) (henough : enough) :
    ∃ e, o = ⟨e, rest, []⟩ ∧ e.bare = value := by
  have hclean := h.clean.mpr henough
  have heq := h.rest_eq hrest
  have hvalue := h.value hclean
  obtain ⟨e, tokens, problems⟩ := o
  simp only at hclean heq
  exact ⟨e, by rw [hclean, heq], hvalue⟩

theorem Stuck.behind {problems : List (Position × SyntaxError)} (h : Stuck o rest)
    (hproblems : OnlyTooDeep problems) : Stuck (o.behind problems) rest :=
  ⟨hproblems.append h.only, by simp [Outcome.behind, h.unclean], h.rest⟩

theorem Reads.of_iff {enough' : Prop} (h : Reads o value enough rest)
    (hiff : enough ↔ enough') : Reads o value enough' rest :=
  ⟨h.only, h.clean.trans hiff, h.value, h.rest⟩

theorem Reads.map {f : Expr → Expr} {g : Expr → Expr} (hf : ∀ e, (f e).bare = g e.bare)
    (h : Reads o value enough rest) :
    Reads ⟨f o.value, o.rest, o.problems⟩ (g value) enough rest :=
  ⟨h.only, h.clean, fun hclean => (hf o.value).trans (congrArg g (h.value hclean)), h.rest⟩

/-! ### Chains

Operators of one level and accesses are read in the same way: `go` reads on with what is left of
the allowance and with the expression so far. -/

section Chains

variable {go : Nat → Expr → List Token → Outcome Expr} {a steps need : Nat}

/-- Reading a phrase in front of `rest` comes down to reading on there after so many steps, or the
rest of the phrase has been passed over. -/
def Continues (go : Nat → Expr → List Token → Outcome Expr) (o : Outcome Expr)
    (a steps need : Nat) (value : Expr) (rest : List Token) : Prop :=
  (∃ left problems, o = (go (a - steps) left rest).behind problems ∧ steps ≤ a ∧
    OnlyTooDeep problems ∧ (problems = [] ↔ need ≤ a) ∧
      (problems = [] → left.bare = value)) ∨
  (Stuck o rest ∧ a < need)

theorem Continues.reads (h : Continues go o a steps need value rest)
    (hgo : ∀ b left, go b left rest = ⟨left, rest, []⟩) : Reads o value (need ≤ a) rest := by
  rcases h with ⟨left, problems, rfl, _, honly, hclean, hvalue⟩ | ⟨hstuck, hneed⟩
  · rw [hgo]
    exact ⟨by simpa [Outcome.behind] using honly, by simpa [Outcome.behind] using hclean,
      by simpa [Outcome.behind] using hvalue, Or.inl rfl⟩
  · exact hstuck.reads (Nat.not_le_of_lt hneed)

theorem Reads.continues {b : Nat} {f : Expr → Expr} {w : Expr}
    (h : Reads o value (need ≤ b) rest) (go : Nat → Expr → List Token → Outcome Expr)
    (steps : Nat) (hf : o.problems = [] → (f o.value).bare = w)
    (hgo : ∀ left, go b left (past subexpression 0 rest) =
      ⟨left, past subexpression 0 rest, []⟩) :
    Continues go ((go b (f o.value) o.rest).behind o.problems) (b + steps) steps
      (steps + need) w rest := by
  -- Either the reader stands at `rest`, or it has passed over what is there, up to a token at which
  -- nothing goes on.
  rcases h.rest with hrest | ⟨hunclean, hrest⟩
  · refine Or.inl ⟨f o.value, o.problems, ?_, Nat.le_add_left _ _, h.only, ?_, hf⟩
    · rw [hrest, Nat.add_sub_cancel]
    · rw [h.clean]
      omega
  · refine Or.inr ⟨⟨?_, ?_, ?_⟩, ?_⟩
    · simpa [Outcome.behind, hrest, hgo] using h.only
    · simpa [Outcome.behind, hrest, hgo] using hunclean
    · simp [Outcome.behind, hrest, hgo]
    · have hneed : ¬need ≤ b := fun hle => hunclean (h.clean.mpr hle)
      omega

/-- One more step: what stands between `rest'` and `rest` is read in one. -/
theorem Continues.step {m : Nat} {g : Expr → Expr}
    (h : Continues go o a steps need value rest')
    (hstep : ∀ b left, Continues go (go b left rest') b 1 m (g left.bare) rest)
    (hpast : past subexpression 0 rest' = past subexpression 0 rest) :
    Continues go o a (steps + 1) (max need (steps + m)) (g value) rest := by
  rcases h with ⟨left, problems, rfl, hsteps, honly, hclean, hvalue⟩ | ⟨hstuck, hneed⟩
  · rcases hstep (a - steps) left with
      ⟨left', problems', heq, hone, honly', hclean', hvalue'⟩ | ⟨hstuck, hneed⟩
    · refine Or.inl ⟨left', problems ++ problems', ?_, by omega, honly.append honly', ?_, ?_⟩
      · rw [heq, Nat.sub_sub]
        simp [Outcome.behind]
      · rw [List.append_eq_nil_iff, hclean, hclean']
        omega
      · intro hnil
        obtain ⟨hproblems, hproblems'⟩ := List.append_eq_nil_iff.mp hnil
        rw [hvalue' hproblems', hvalue hproblems]
    · exact Or.inr ⟨hstuck.behind honly, by omega⟩
  · exact Or.inr ⟨⟨hstuck.only, hstuck.unclean, hstuck.rest.trans hpast⟩, by omega⟩

end Chains

end WireSpec.Grammar
