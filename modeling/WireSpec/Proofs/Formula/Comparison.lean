import Mathlib
import WireSpec.Proofs.Codec.FieldValues
import WireSpec.Proofs.Formula.Arithmetic
/-!
# Comparing operands

Operands other than floats compare if they are of one kind, and then as lists of integers that tell
operands of a kind apart: a number and a truth value by itself, a text and a sequence by its bytes.
So they are in a linear order, in which integers of all widths and signs and characters stand by
their values, and all six comparisons of a formula agree with it.
-/

namespace WireSpec

namespace Operand

/-! ### Keys -/

def byteKey (b : Bytes) : List Int := b.map fun x => (x.toNat : Int)

/-- What operands of one kind compare by. -/
def key : Operand → List Int
  | int x => [x.val]
  | bool b => [if b then 1 else 0]
  | string s => byteKey (Text.utf8Bytes s)
  | bytes b => byteKey b
  | float _ | null => []

theorem compare_singleton (x y : Int) : compare [x] [y] = compare x y := by
  rw [List.compare_cons_cons, List.compare_nil_nil]
  cases compare x y <;> rfl

theorem compare_natCast (m n : Nat) : compare (m : Int) n = compare m n := by
  simp only [Int.compare_eq_ite_lt, Nat.compare_eq_ite_lt, Int.ofNat_lt]

/-- Byte sequences compare as their keys do. -/
theorem orderBytes_eq (a b : Bytes) : orderBytes a b = compare (byteKey a) (byteKey b) := by
  unfold orderBytes byteKey
  induction a generalizing b with
  | nil => cases b <;> simp
  | cons x a ih =>
      cases b with
      | nil => simp
      | cons y b => simp only [List.map_cons, List.compare_cons_cons, compare_natCast, ih]

variable {x y z : Operand}

theorem order?_eq (hx : x.kind ≠ .float) (hy : y.kind ≠ .float) :
    x.order? y = if x.kind = y.kind then some (compare x.key y.key) else none := by
  cases x with
  | float => exact absurd rfl hx
  | int a =>
      cases y with
      | float => exact absurd rfl hy
      | int b => exact congrArg some (compare_singleton a.val b.val).symm
      | bool | string | bytes | null => rfl
  | string s =>
      cases y with
      | float => exact absurd rfl hy
      | string t => exact congrArg some (orderBytes_eq _ _)
      | int | bool | bytes | null => rfl
  | bytes a =>
      cases y with
      | float => exact absurd rfl hy
      | bytes b => exact congrArg some (orderBytes_eq a b)
      | int | bool | string | null => rfl
  | bool a =>
      cases y with
      | float => exact absurd rfl hy
      | bool b => cases a <;> cases b <;> rfl
      | int | bytes | string | null => rfl
  | null =>
      cases y with
      | float => exact absurd rfl hy
      | null => rfl
      | int | bytes | string | bool => rfl

theorem byteKey_injective {a b : Bytes} (h : byteKey a = byteKey b) : a = b := by
  have hinjective : Function.Injective fun x : UInt8 => (x.toNat : Int) :=
    fun x y hxy => UInt8.toNat_inj.mp (Int.ofNat_inj.mp hxy)
  exact List.map_injective_iff.mpr hinjective h

theorem utf8Bytes_injective {s t : String} (h : Text.utf8Bytes s = Text.utf8Bytes t) : s = t := by
  have hs := Text.utf8Text?_utf8Bytes s
  rw [h, Text.utf8Text?_utf8Bytes] at hs
  exact (Option.some.inj hs).symm

theorem eq_of_key_eq (hx : x.kind ≠ .float) (hkind : x.kind = y.kind) (hkey : x.key = y.key) :
    x = y := by
  cases x with
  | float => exact absurd rfl hx
  | int a =>
      cases y with
      | int b => rw [Subtype.ext (List.head_eq_of_cons_eq hkey)]
      | float | bool | string | bytes | null => cases hkind
  | string s =>
      cases y with
      | string t => rw [utf8Bytes_injective (byteKey_injective hkey)]
      | float | int | bool | bytes | null => cases hkind
  | bytes a =>
      cases y with
      | bytes b => rw [byteKey_injective hkey]
      | float | int | bool | string | null => cases hkind
  | bool a =>
      cases y with
      | bool b => cases a <;> cases b <;> first | rfl | cases hkey
      | float | int | bytes | string | null => cases hkind
  | null =>
      cases y with
      | null => rfl
      | float | int | bytes | string | bool => cases hkind

/-! ### Laws of the order -/

theorem order?_eq_some {order : Ordering} (hx : x.kind ≠ .float) (hy : y.kind ≠ .float) :
    x.order? y = some order ↔ x.kind = y.kind ∧ compare x.key y.key = order := by
  rw [order?_eq hx hy]
  split <;> simp [*]

theorem isSome_order? (hx : x.kind ≠ .float) (hy : y.kind ≠ .float) :
    (x.order? y).isSome ↔ x.kind = y.kind := by
  rw [order?_eq hx hy]
  split <;> simp [*]

theorem order?_swap (hx : x.kind ≠ .float) (hy : y.kind ≠ .float) :
    y.order? x = (x.order? y).map Ordering.swap := by
  rw [order?_eq hx hy, order?_eq hy hx]
  by_cases hkind : x.kind = y.kind
  · rw [if_pos hkind, if_pos hkind.symm, Std.OrientedOrd.eq_swap]
    rfl
  · rw [if_neg hkind, if_neg (Ne.symm hkind)]
    rfl

theorem order?_eq_eq (hx : x.kind ≠ .float) (hy : y.kind ≠ .float) :
    x.order? y = some .eq ↔ x = y := by
  rw [order?_eq_some hx hy, Std.compare_eq_iff_eq]
  constructor
  · rintro ⟨hkind, hkey⟩
    exact eq_of_key_eq hx hkind hkey
  · rintro rfl
    exact ⟨rfl, rfl⟩

theorem order?_lt_trans (hx : x.kind ≠ .float) (hy : y.kind ≠ .float) (hz : z.kind ≠ .float)
    (hxy : x.order? y = some .lt) (hyz : y.order? z = some .lt) : x.order? z = some .lt := by
  obtain ⟨hkind, hkey⟩ := (order?_eq_some hx hy).mp hxy
  obtain ⟨hkind', hkey'⟩ := (order?_eq_some hy hz).mp hyz
  exact (order?_eq_some hx hz).mpr ⟨hkind.trans hkind', Std.TransCmp.lt_trans hkey hkey'⟩

/-- Of two steps that do not go down, the first that goes up decides. -/
theorem order?_trans {order order' : Ordering} (hx : x.kind ≠ .float) (hy : y.kind ≠ .float)
    (hz : z.kind ≠ .float) (hxy : x.order? y = some order) (hyz : y.order? z = some order')
    (hup : order ≠ .gt) (hup' : order' ≠ .gt) : x.order? z = some (order.then order') := by
  cases order with
  | gt => exact absurd rfl hup
  | eq =>
      obtain rfl := (order?_eq_eq hx hy).mp hxy
      exact hyz
  | lt =>
      cases order' with
      | gt => exact absurd rfl hup'
      | eq =>
          obtain rfl := (order?_eq_eq hy hz).mp hyz
          exact hxy
      | lt => exact order?_lt_trans hx hy hz hxy hyz

/-- An integral value compares as its integer. -/
theorem order?_ofValue {v w : Value} {m n : Int} (hv : v.IsIntegral) (hw : w.IsIntegral)
    (hm : v.integer? = some m) (hn : w.integer? = some n) :
    (ofValue v).order? (ofValue w) = some (compare m n) := by
  obtain ⟨a, ha, ha'⟩ := hv.exists_ofValue_eq
  obtain ⟨b, hb, hb'⟩ := hw.exists_ofValue_eq
  rw [ha, hb, Option.some.inj (hm.symm.trans ha'), Option.some.inj (hn.symm.trans hb')]
  rfl

end Operand

namespace Formula

/-! ### Comparisons of formulas -/

/-- The operator comes to a truth value between the two formulas. -/
def Decides (env : Env) (f g : Formula) (op : BinaryOp) (holds : Bool) : Prop :=
  (binary op f g).eval env = .ok (.bool holds)

/-- The operators that ask for an order. -/
def orderings : List BinaryOp := [.less, .lessEqual, .greater, .greaterEqual]

variable {env : Env} {f g : Formula} {x y : Operand}

theorem eval_ordering (hf : f.eval env = .ok x) (hg : g.eval env = .ok y) {op : BinaryOp}
    (hop : op ∈ orderings) : (binary op f g).eval env = comparison op x y := by
  simp only [orderings, List.mem_cons, List.not_mem_nil, or_false] at hop
  rcases hop with rfl | rfl | rfl | rfl <;> simp only [eval, hf, hg] <;> rfl

theorem decides_equal (hf : f.eval env = .ok x) (hg : g.eval env = .ok y) :
    Decides env f g .equal (x.order? y == some .eq) := by
  simp only [Decides, eval, hf, hg]
  rfl

theorem decides_notEqual (hf : f.eval env = .ok x) (hg : g.eval env = .ok y) :
    Decides env f g .notEqual (x.order? y != some .eq) := by
  simp only [Decides, eval, hf, hg]
  rfl

theorem decides_ordering (hf : f.eval env = .ok x) (hg : g.eval env = .ok y) {op : BinaryOp}
    (hop : op ∈ orderings) {order : Ordering} (horder : x.order? y = some order) :
    Decides env f g op (holdsOf op order) := by
  rw [Decides, eval_ordering hf hg hop]
  simp only [comparison, horder]

theorem eval_unordered (hf : f.eval env = .ok x) (hg : g.eval env = .ok y) {op : BinaryOp}
    (hop : op ∈ orderings) (hnone : x.order? y = none) :
    (binary op f g).eval env = .error (.binaryType op x.kind y.kind) := by
  rw [eval_ordering hf hg hop]
  simp only [comparison, hnone]

/-- Integral values are in the order of their integers.  Operands that are no floats are in a linear
order within their kinds, and of different kinds in none.  With it agree the comparisons of formulas
that have these operands as values. -/
theorem comparisons_agree :
    (∀ (v w : Value) (m n : Int), v.IsIntegral → w.IsIntegral → v.integer? = some m →
      w.integer? = some n → (Operand.ofValue v).order? (.ofValue w) = some (compare m n)) ∧
    (∀ x y : Operand, x.kind ≠ .float → y.kind ≠ .float →
      ((x.order? y).isSome ↔ x.kind = y.kind) ∧
      y.order? x = (x.order? y).map Ordering.swap ∧
      (x.order? y = some .eq ↔ x = y) ∧
      (∀ (z : Operand) (order order' : Ordering), z.kind ≠ .float → x.order? y = some order →
        y.order? z = some order' → order ≠ .gt → order' ≠ .gt →
          x.order? z = some (order.then order')) ∧
      ∀ (env : Env) (f g : Formula), f.eval env = .ok x → g.eval env = .ok y →
        (∀ order, x.order? y = some order → ∃ less equal greater : Bool,
          less.toNat + equal.toNat + greater.toNat = 1 ∧ (less ↔ order = .lt) ∧
          (equal ↔ order = .eq) ∧ (greater ↔ order = .gt) ∧
          Decides env f g .less less ∧ Decides env f g .lessEqual (!greater) ∧
          Decides env f g .equal equal ∧ Decides env f g .notEqual (!equal) ∧
          Decides env f g .greater greater ∧ Decides env f g .greaterEqual (!less)) ∧
        (x.order? y = none → Decides env f g .equal false ∧ Decides env f g .notEqual true ∧
          ∀ op ∈ [.less, .lessEqual, .greater, .greaterEqual],
            (binary op f g).eval env = .error (.binaryType op x.kind y.kind))) := by
  refine ⟨fun v w m n => Operand.order?_ofValue, fun x y hx hy => ⟨Operand.isSome_order? hx hy,
    Operand.order?_swap hx hy, Operand.order?_eq_eq hx hy,
    fun z order order' hz => Operand.order?_trans hx hy hz, fun env f g hf hg => ⟨?_, ?_⟩⟩⟩
  · intro order horder
    have hequal := decides_equal hf hg
    have hnotEqual := decides_notEqual hf hg
    have hordering (op : BinaryOp) (hop : op ∈ orderings) := decides_ordering hf hg hop horder
    rw [horder] at hequal hnotEqual
    refine ⟨order == .lt, order == .eq, order == .gt, ?_, beq_iff_eq, beq_iff_eq, beq_iff_eq,
      hordering .less (by decide), hordering .lessEqual (by decide), hequal, hnotEqual,
      hordering .greater (by decide), hordering .greaterEqual (by decide)⟩
    -- Of the three orders just one is the case.
    cases order <;> rfl
  · intro hnone
    have hequal := decides_equal hf hg
    have hnotEqual := decides_notEqual hf hg
    rw [hnone] at hequal hnotEqual
    exact ⟨hequal, hnotEqual, fun op hop => eval_unordered hf hg hop hnone⟩

/-- The greatest number without a sign is above -1, `ab` is not above `añ`, and a truth value has no
order with a number. -/
theorem comparisons_agree_mixed :
    (Operand.ofValue (.int .u64 ⟨18446744073709551615, by decide⟩)).order?
      (.ofValue (.int .i8 ⟨-1, by decide⟩)) = some .gt ∧
    Decides .constant (const (.string "ab")) (const (.string "añ")) .lessEqual true ∧
    (binary .less (const (.bool true)) (const (.int ⟨1, by decide⟩))).eval .constant =
      .error (.binaryType .less .bool .integer) := by
  obtain ⟨hintegers, hoperands⟩ := comparisons_agree
  refine ⟨?_, ?_, ?_⟩
  · exact hintegers (.int .u64 ⟨18446744073709551615, by decide⟩) (.int .i8 ⟨-1, by decide⟩) _ _
      trivial trivial rfl rfl
  · obtain ⟨-, -, -, -, htexts⟩ := hoperands (.string "ab") (.string "añ") (by decide) (by decide)
    obtain ⟨_, _, greater, -, -, -, hgreater, -, hlessEqual, -⟩ :=
      (htexts .constant (const (.string "ab")) (const (.string "añ")) rfl rfl).1 .lt (by decide)
    have hfalse : greater = false := by simpa using hgreater
    rwa [hfalse] at hlessEqual
  · obtain ⟨-, -, -, -, hkinds⟩ :=
      hoperands (.bool true) (.int ⟨1, by decide⟩) (by decide) (by decide)
    exact ((hkinds .constant (const (.bool true)) (const (.int ⟨1, by decide⟩)) rfl rfl).2
      rfl).2.2 .less (by decide)

end Formula

end WireSpec
