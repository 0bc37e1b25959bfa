import WireSpec.Analysis.Binding
import WireSpec.Proofs.Formula.Places
/-!
# The identifiers that a formula comes from

Binding puts the places of fields where their names stand in an expression, and folding only takes
places away.  So the places of a bound formula belong, in their order, to identifiers of the
expression; in particular they are places of visible fields.
-/

open scoped List

namespace WireSpec

mutual

/-- The identifiers of an expression from left to right.  The names of members and of functions are
none. -/
def Expr.identifiers : Expr → List String
  | .literal _ _ => []
  | .name _ word => [word]
  | .unary _ _ e => e.identifiers
  | .binary _ l r => l.identifiers ++ r.identifiers
  | .member o _ => o.identifiers
  | .index o i => o.identifiers ++ i.identifiers
  | .slice o i j => o.identifiers ++ i.identifiers ++ j.identifiers
  | .call _ _ args => Expr.identifiersAll args

def Expr.identifiersAll : List Expr → List String
  | [] => []
  | e :: rest => e.identifiers ++ Expr.identifiersAll rest

end

/-- The fields at these places have the names of some of the identifiers, in the same order. -/
def NamedBy (names : List String) (places : List Nat) (identifiers : List String) : Prop :=
  places.map (names[·]?) <+ identifiers.map some

namespace NamedBy

variable {names identifiers : List String} {places : List Nat}

theorem nil (names identifiers : List String) : NamedBy names [] identifiers := List.nil_sublist _

theorem of_eq (h : places.map (names[·]?) = identifiers.map some) :
    NamedBy names places identifiers := by
  simp [NamedBy, h]

theorem append {places' : List Nat} {identifiers' : List String}
    (h : NamedBy names places identifiers) (h' : NamedBy names places' identifiers') :
    NamedBy names (places ++ places') (identifiers ++ identifiers') := by
  unfold NamedBy at *
  rw [List.map_append, List.map_append]
  exact List.Sublist.append h h'

theorem of_sublist {places' : List Nat} (h : NamedBy names places identifiers)
    (hplaces : places' <+ places) : NamedBy names places' identifiers :=
  (hplaces.map _).trans h

theorem exists_name (h : NamedBy names places identifiers) {i : Nat} (hi : i ∈ places) :
    ∃ name ∈ identifiers, names[i]? = some name := by
  have hmem : names[i]? ∈ identifiers.map some := List.Sublist.subset h (List.mem_map_of_mem hi)
  obtain ⟨name, hname, heq⟩ := List.mem_map.mp hmem
  exact ⟨name, hname, heq.symm⟩

theorem lt_length (h : NamedBy names places identifiers) {i : Nat} (hi : i ∈ places) :
    i < names.length := by
  obtain ⟨name, _, hname⟩ := h.exists_name hi
  obtain ⟨hlt, _⟩ := List.getElem?_eq_some_iff.mp hname
  exact hlt

end NamedBy

/-- The fields of a formula are called as identifiers of an expression are. -/
def Formula.Refers (f : Formula) (names : List String) (e : Expr) : Prop :=
  NamedBy names f.places e.identifiers

theorem Formula.Refers.within {f : Formula} {names : List String} {e : Expr}
    (h : f.Refers names e) : f.Within names.length := fun _ hi => NamedBy.lt_length h hi

theorem Formula.refers_const (v : Operand) (names : List String) (e : Expr) :
    (Formula.const v).Refers names e := .nil names e.identifiers

theorem lastPlace?_eq_some {names : List String} {name : String} {i : Nat}
    (h : lastPlace? names name = some i) : names[i]? = some name := by
  obtain ⟨front, back, heq, _⟩ := List.lookup_eq_some_iff.mp h
  have hmem : (name, i) ∈ names.zipIdx.reverse := by simp [heq]
  exact List.mk_mem_zipIdx_iff_getElem?.mp (List.mem_reverse.mp hmem)

namespace Context

variable {c : Context} {visible : List String}

theorem refers_of_lookupMember {name : String} {f : Formula} (e : Expr)
    (h : c.lookupMember name = .bound f) : f.Refers visible e := by
  unfold lookupMember at h
  split at h
  · cases h
  · cases h
    exact Formula.refers_const _ _ _
  · cases h

theorem refers_of_lookup {position : Position} {name : String} {f : Formula}
    (h : c.lookup (.fields visible) name = .bound f) : f.Refers visible (.name position name) := by
  simp only [lookup] at h
  split at h
  · cases h
    exact .nil _ _
  · split at h
    · rename_i place hplace
      cases h
      simp [Formula.Refers, NamedBy, Formula.places, Expr.identifiers, lastPlace?_eq_some hplace]
    · exact refers_of_lookupMember _ h

theorem refers_bindName (position : Position) (name : String) :
    (c.bindName (.fields visible) position name).value.Refers visible (.name position name) := by
  unfold bindName
  split
  · rename_i formula h
    exact refers_of_lookup h
  · exact Formula.refers_const _ _ _
  · split
    · exact Formula.refers_const _ _ _
    · split <;> exact Formula.refers_const _ _ _

/-- Settling a formula brings in no fields. -/
def Settles (settle : Position → Formula → Checked Formula) : Prop :=
  ∀ position f, (settle position f).value.places <+ f.places

theorem settles_fold : Settles fold := by
  intro position f
  unfold fold
  split
  · split <;> exact List.nil_sublist _
  · exact List.Sublist.refl _

theorem Settles.settleWith {settle : Position → Formula → Checked Formula} (hs : Settles settle)
    (position : Position) {f : Checked Formula} {e : Expr} (h : f.value.Refers visible e) :
    (settleWith settle position f).value.Refers visible e := by
  unfold Context.settleWith
  split
  · exact NamedBy.of_sublist h (hs position f.value)
  · exact h

/-- Binding in a message gives a formula over the fields that the expression names, whether or not
it has problems. -/
theorem refers_bindWith {settle : Position → Formula → Checked Formula} (hs : Settles settle)
    (e : Expr) : (bindWith settle c (.fields visible) e).value.Refers visible e := by
  -- The formula of a part refers to its identifiers by induction, and settling keeps that.
  cases e with
  | literal => exact Formula.refers_const _ _ _
  | name position word => exact refers_bindName position word
  | unary position op operand => exact hs.settleWith position (refers_bindWith hs operand)
  | binary op left right =>
      have hboth := NamedBy.append (refers_bindWith hs left) (refers_bindWith hs right)
      exact hs.settleWith left.position hboth
  | member object word =>
      unfold bindWith
      split
      · split <;> exact Formula.refers_const _ _ _
      · split
        · exact hs.settleWith object.position (refers_bindWith hs object)
        · exact Formula.refers_const _ _ _
  | index object index =>
      have hboth := NamedBy.append (refers_bindWith hs object) (refers_bindWith hs index)
      exact hs.settleWith object.position hboth
  | slice object start stop =>
      have hfront := NamedBy.append (refers_bindWith hs object) (refers_bindWith hs start)
      exact hs.settleWith object.position (hfront.append (refers_bindWith hs stop))
  | call position word arguments =>
      unfold bindWith
      split
      · exact Formula.refers_const _ _ _
      · split
        · rename_i argument
          refine hs.settleWith position ?_
          have hargument := refers_bindWith hs argument
          simpa [Formula.Refers, Formula.places, Expr.identifiers, Expr.identifiersAll] using
            hargument
        · exact Formula.refers_const _ _ _

theorem refers_bind (e : Expr) : (c.bind (.fields visible) e).value.Refers visible e :=
  refers_bindWith settles_fold e

end Context

end WireSpec
