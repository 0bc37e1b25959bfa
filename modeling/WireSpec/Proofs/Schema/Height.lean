import WireSpec.Proofs.Schema.Grammar
/-!
# The height of expressions

A chain gives back the levels that it has used when it ends, and what follows it may use them
again.  So the allowance that suffices for a phrase bounds its height, but by far more than itself.
-/

namespace WireSpec

mutual

/-- How many nodes lie on the longest path from the root to a leaf. -/
def Expr.height : Expr → Nat
  | .literal _ _ | .name _ _ => 1
  | .unary _ _ e => e.height + 1
  | .binary _ l r => max l.height r.height + 1
  | .member o _ => o.height + 1
  | .index o i => max o.height i.height + 1
  | .slice o i j => max o.height (max i.height j.height) + 1
  | .call _ _ args => Expr.heightAll args + 1

def Expr.heightAll : List Expr → Nat
  | [] => 0
  | e :: rest => max e.height (Expr.heightAll rest)

end

mutual

theorem Expr.height_bare (e : Expr) : e.bare.height = e.height := by
  cases e with
  | literal | name => rfl
  | unary _ _ e => simp only [Expr.bare, Expr.height, Expr.height_bare e]
  | binary _ l r => simp only [Expr.bare, Expr.height, Expr.height_bare l, Expr.height_bare r]
  | member o _ => simp only [Expr.bare, Expr.height, Expr.height_bare o]
  | index o i => simp only [Expr.bare, Expr.height, Expr.height_bare o, Expr.height_bare i]
  | slice o i j =>
      simp only [Expr.bare, Expr.height, Expr.height_bare o, Expr.height_bare i,
        Expr.height_bare j]
  | call _ _ args => simp only [Expr.bare, Expr.height, Expr.heightAll_bareAll args]

theorem Expr.heightAll_bareAll (args : List Expr) :
    Expr.heightAll (Expr.bareAll args) = Expr.heightAll args := by
  cases args with
  | nil => rfl
  | cons e rest =>
      simp only [Expr.bareAll, Expr.heightAll, Expr.height_bare e, Expr.heightAll_bareAll rest]

end

namespace Grammar

/-! ### The bound -/

/-- The greatest height of a whole expression for which an allowance suffices. -/
def heightBound : Nat → Nat
  | 0 => 0
  | a + 1 => heightBound a + a + 1 + 10 * a

/-- The same for an expression of no operators but prefix ones. -/
def unaryBound : Nat → Nat
  | 0 => 0
  | a + 1 => heightBound a + a + 1

theorem unaryBound_succ (a : Nat) : unaryBound (a + 1) = heightBound a + a + 1 := rfl

theorem heightBound_eq (a : Nat) : heightBound a = unaryBound a + 10 * (a - 1) := by
  cases a <;> rfl

namespace Phrase

theorem need_pos_binary {k : Nat} : (t : Phrase (.binary k)) → 0 < t.need
  | operand t => t.need_pos
  | tighter t => t.need_pos_binary
  | operation _ _ l _ => Nat.lt_of_lt_of_le l.need_pos_binary (Nat.le_max_left _ _)

theorem steps_lt_need {k : Nat} (t : Phrase (.binary k)) : t.steps < t.need := by
  cases t with
  | operand t => exact t.need_pos
  | tighter t => exact t.need_pos_binary
  | operation op level l r =>
      have hr := r.need_pos_binary
      simp only [steps, need]
      omega

theorem steps_le_need (t : Phrase .accessed) : t.steps ≤ t.need := by
  cases t with
  | object t => exact Nat.zero_le _
  | member t n => exact Nat.le_max_right _ _
  | index t i =>
      simp only [steps, need]
      omega
  | slice t i j =>
      simp only [steps, need]
      omega

end Phrase

/-- What an allowance that suffices for a phrase says of its height, by its form. -/
def Low (a : Nat) : {f : Form} → Phrase f → Prop
  | .binary 0, t => Expr.height t.value ≤ unaryBound a
  | .binary (k + 1), t => Expr.height t.value ≤ unaryBound a + k * (a - 1) + t.steps
  | .unary, t => Expr.height t.value ≤ unaryBound a
  | .accessed, t => Expr.height t.value ≤ heightBound a + 1 + t.steps
  | .primary, t => Expr.height t.value ≤ heightBound a + 1
  | .arguments, t => Expr.heightAll t.value ≤ heightBound a

theorem Low.height_le {a k : Nat} {t : Phrase (.binary k)} (h : Low a t) (ha : t.need ≤ a) :
    Expr.height t.value ≤ unaryBound a + k * (a - 1) := by
  have hsteps := t.steps_lt_need
  cases k with
  | zero =>
      have h : Expr.height t.value ≤ unaryBound a := h
      omega
  | succ k =>
      have h : Expr.height t.value ≤ unaryBound a + k * (a - 1) + t.steps := h
      rw [Nat.succ_mul]
      omega

theorem Low.height_le_whole {a : Nat} {t : Phrase .whole} (h : Low a t) (ha : t.need ≤ a) :
    Expr.height t.value ≤ heightBound a := by
  rw [heightBound_eq]
  exact h.height_le ha

theorem low_of_need {f : Form} (t : Phrase f) : ∀ a, t.need ≤ a → Low a t := by
  -- A left operand keeps the allowance of its chain: the steps add to its height without limiting it.
  induction t with
  | operand t ih => exact ih
  | tighter t ih => exact fun a ha => (ih a ha).height_le ha
  | operation op level l r ihl ihr =>
      intro a ha
      simp only [Phrase.need] at ha
      have hl := ihl a (by omega)
      have hr := (ihr a (by omega)).height_le (by omega)
      simp only [Low, Phrase.value, Phrase.steps, Expr.height] at hl ⊢
      omega
  | signed op t ih =>
      intro a ha
      obtain ⟨a, rfl⟩ := Nat.exists_eq_add_one_of_ne_zero (Nat.ne_of_gt (Nat.lt_of_lt_of_le
        (Nat.succ_pos _) ha))
      have ht := ih a (Nat.le_of_succ_le_succ ha)
      have hbound := heightBound_eq a
      simp only [Low, Phrase.value, Expr.height, unaryBound_succ] at ht ⊢
      omega
  | unsigned t ih =>
      intro a ha
      obtain ⟨a, rfl⟩ := Nat.exists_eq_add_one_of_ne_zero (Nat.ne_of_gt (Nat.lt_of_lt_of_le
        (Nat.succ_pos _) ha))
      have hneed : t.need ≤ a := Nat.le_of_succ_le_succ ha
      have ht := ih a hneed
      have hsteps := t.steps_le_need
      simp only [Low, Phrase.value, unaryBound_succ] at ht ⊢
      omega
  | object t ih => exact ih
  | member t n ih =>
      intro a ha
      simp only [Phrase.need] at ha
      have ht := ih a (by omega)
      simp only [Low, Phrase.value, Phrase.steps, Expr.height] at ht ⊢
      omega
  | index t i iht ihi =>
      intro a ha
      simp only [Phrase.need] at ha
      have ht := iht a (by omega)
      have hi := (ihi a (by omega)).height_le_whole (by omega)
      simp only [Low, Phrase.value, Phrase.steps, Expr.height] at ht ⊢
      omega
  | slice t i j iht ihi ihj =>
      intro a ha
      simp only [Phrase.need] at ha
      have ht := iht a (by omega)
      have hi := (ihi a (by omega)).height_le_whole (by omega)
      have hj := (ihj a (by omega)).height_le_whole (by omega)
      simp only [Low, Phrase.value, Phrase.steps, Expr.height] at ht ⊢
      omega
  | literal value | name n | call n => exact fun a _ => Nat.le_add_left _ _
  | callWith n args ih => exact fun a ha => Nat.succ_le_succ (ih a ha)
  | group t ih => exact fun a ha => Nat.le_succ_of_le ((ih a ha).height_le_whole ha)
  | last t ih => exact fun a ha => Nat.max_le.mpr ⟨(ih a ha).height_le_whole ha, Nat.zero_le _⟩
  | more t args iht ihargs =>
      intro a ha
      obtain ⟨ht, hargs⟩ := Nat.max_le.mp ha
      exact Nat.max_le.mpr ⟨(iht a ht).height_le_whole ht, ihargs a hargs⟩

theorem height_le_heightBound {t : Phrase .whole} {a : Nat} (h : t.need ≤ a) :
    Expr.height t.value ≤ heightBound a :=
  (low_of_need t a h).height_le_whole h

end Grammar

end WireSpec
