/-!
# Integers of 128 bits

The integers that expressions compute with.  Arithmetic is that of `Int` followed by a range
check, so a result is exact or missing; operations on bits are those of the two's complement form.
-/

namespace WireSpec

/-- Half the number of bit patterns, `2 ^ 127`. -/
def Int128.bound : Nat := 0x80000000000000000000000000000000

def Int128.InRange (x : Int) : Prop := -Int128.bound ≤ x ∧ x < Int128.bound

instance (x : Int) : Decidable (Int128.InRange x) :=
  inferInstanceAs (Decidable (_ ∧ _))

abbrev Int128 : Type := { x : Int // Int128.InRange x }

namespace Int128

def ofInt? (x : Int) : Option Int128 :=
  if h : InRange x then some ⟨x, h⟩ else none

@[simp] theorem ofInt?_val (x : Int128) : ofInt? x.val = some x := by
  simp [ofInt?, x.property]

def ofBitVec (b : BitVec 128) : Int128 :=
  ⟨b.toInt, by
    have h₁ := BitVec.le_toInt b
    have h₂ := BitVec.toInt_lt (x := b)
    exact ⟨h₁, h₂⟩⟩

def toBitVec (x : Int128) : BitVec 128 := BitVec.ofInt 128 x.val

/-- A number below `2 ^ 64` is in range. -/
def ofUInt64 (n : UInt64) : Int128 :=
  ⟨n.toNat, by
    have := n.toNat_lt
    simp only [InRange, bound]
    omega⟩

def and (x y : Int128) : Int128 := ofBitVec (x.toBitVec &&& y.toBitVec)

def or (x y : Int128) : Int128 := ofBitVec (x.toBitVec ||| y.toBitVec)

def xor (x y : Int128) : Int128 := ofBitVec (x.toBitVec ^^^ y.toBitVec)

def complement (x : Int128) : Int128 := ofBitVec (~~~x.toBitVec)

/-- Bits that are shifted out at the top are lost. -/
def shiftLeft (x : Int128) (n : Nat) : Int128 := ofBitVec (x.toBitVec <<< n)

/-- The sign is shifted in at the top. -/
def shiftRight (x : Int128) (n : Nat) : Int128 := ofBitVec (x.toBitVec.sshiftRight n)

end Int128

end WireSpec
