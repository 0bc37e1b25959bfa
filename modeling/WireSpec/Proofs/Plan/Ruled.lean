import WireSpec.Proofs.Plan.Planned
/-!
# What the rules of a plan refer to

The condition of a rule and what it displays are bound among all fields of the message.  A string is
displayed as a template, whose placeholders are names as identifiers are.
-/

open scoped List

namespace WireSpec

theorem except_map_eq_ok {ε α β : Type} {x : Except ε α} {f : α → β} {b : β} :
    x.map f = .ok b ↔ ∃ a, x = .ok a ∧ f a = b := by
  cases x <;> simp [Except.map]

namespace Template

/-- What the placeholders of a template stand for. -/
def holes {α : Type} : Template α → List α
  | [] => []
  | .text _ :: rest => holes rest
  | .hole target :: rest => target :: holes rest

theorem map_holes_bindNames {fields : List String} {t : Template String} {t' : Template Nat}
    (h : t.bindNames (lastPlace? fields) = .ok t') :
    t'.holes.map (fields[·]?) = t.names.map some := by
  fun_induction names t generalizing t' with
  | case1 =>
      cases h
      rfl
  | case2 text rest ih =>
      obtain ⟨later, hlater, rfl⟩ := except_map_eq_ok.mp h
      rw [holes, ih hlater]
  | case3 name rest ih =>
      simp only [bindNames] at h
      split at h
      · rename_i place hplace
        obtain ⟨later, hlater, rfl⟩ := except_map_eq_ok.mp h
        rw [holes, List.map_cons, List.map_cons, ih hlater, lastPlace?_eq_some hplace]
      · cases h

end Template

/-- The names in an expression that is displayed. -/
def Expr.displayed : Expr → List String
  | .literal _ (.string text) => (Template.parse text.toList).names
  | e => e.identifiers

/-- The places of all fields that are displayed or that a displayed formula is computed from. -/
def Display.places : Display → List Nat
  | .template t => t.holes
  | .formula f => f.places

/-- All fields that a rule refers to stand before a place. -/
structure Rule.Scoped (r : Rule) (bound : Nat) : Prop where
  condition : r.condition.Within bound
  display : ∀ d, r.display = some d → ∀ i ∈ d.places, i < bound
  color : ∀ f, r.color = some f → f.Within bound

/-- A rule is about the fields that its declaration names. -/
structure Rule.Resolves (r : Rule) (decl : RuleDecl) (fields : List String) : Prop where
  condition : r.condition.Refers fields decl.condition
  display : ∀ d, r.display = some d →
    ∃ e, (.display, e) ∈ decl.actions ∧ NamedBy fields d.places e.displayed
  color : ∀ f, r.color = some f → ∃ e, (.color, e) ∈ decl.actions ∧ f.Refers fields e

theorem Rule.Resolves.scoped {r : Rule} {decl : RuleDecl} {fields : List String}
    (h : r.Resolves decl fields) : r.Scoped fields.length := by
  refine ⟨h.condition.within, ?_, ?_⟩
  · intro d hd i hi
    obtain ⟨e, _, hnamed⟩ := h.display d hd
    exact hnamed.lt_length hi
  · intro f hf
    obtain ⟨e, _, hrefers⟩ := h.color f hf
    exact hrefers.within

namespace Context

variable {c : Context} {fields : List String}

theorem namedBy_display (e : Expr) :
    NamedBy fields (c.display fields e).value.places e.displayed := by
  unfold display
  split
  · rename_i position text
    split
    · rename_i t ht
      have hholes := Template.map_holes_bindNames ht
      exact NamedBy.of_eq hholes
    · exact .nil _ _
  · rename_i hstring
    -- Only a string is not displayed by its identifiers.
    have hdisplayed : e.displayed = e.identifiers := by
      unfold Expr.displayed
      split
      · rename_i position text
        exact absurd rfl (hstring position text)
      · rfl
    rw [hdisplayed]
    exact refers_bind e

theorem refers_color (e : Expr) : (c.color fields e).value.Refers fields e := by
  unfold color
  split
  · split
    · exact Formula.refers_const _ _ _
    · exact refers_bind _
  · exact refers_bind e

theorem resolves_actions {decl : RuleDecl} {r : Rule} (h : r.Resolves decl fields)
    {items : List (ActionKind × Expr)} (hitems : items ⊆ decl.actions) :
    (c.actions fields r items).value.Resolves decl fields := by
  fun_induction actions c fields r items with
  | case1 r => exact h
  | case2 r e rest ih =>
      obtain ⟨hfirst, hrest⟩ := List.cons_subset.mp hitems
      refine ih _ ⟨h.condition, ?_, h.color⟩ hrest
      rintro _ ⟨⟩
      exact ⟨e, hfirst, namedBy_display e⟩
  | case3 r e rest ih =>
      obtain ⟨hfirst, hrest⟩ := List.cons_subset.mp hitems
      refine ih _ ⟨h.condition, h.display, ?_⟩ hrest
      rintro _ ⟨⟩
      exact ⟨e, hfirst, refers_color e⟩

theorem resolves_rule (decl : RuleDecl) : (c.rule fields decl).value.Resolves decl fields :=
  resolves_actions ⟨refers_bind decl.condition, by simp, by simp⟩ (List.Subset.refl _)

theorem value_rules (decls : List RuleDecl) :
    (c.rules fields decls).value = decls.map fun decl => (c.rule fields decl).value := by
  induction decls with
  | nil => rfl
  | cons decl rest ih => simp [rules, ih]

/-- Every rule of a plan is about the fields of the message that its declaration names. -/
theorem resolves_rules {p : Protocol} {m : MessageDecl} {r : Rule}
    (hr : r ∈ (c.plan p m).value.rules) :
    ∃ decl ∈ p.rules.getD [], r.Resolves decl ((c.plan p m).value.fields.map (·.name)) := by
  have hrules : (c.plan p m).value.rules =
      (c.rules ((allFields p m).value.map (·.name)) (p.rules.getD [])).value := rfl
  rw [hrules, value_rules] at hr
  obtain ⟨decl, hdecl, rfl⟩ := List.mem_map.mp hr
  rw [names_plan]
  exact ⟨decl, hdecl, resolves_rule decl⟩

end Context

end WireSpec
