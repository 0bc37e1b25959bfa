/-!
# Byte order

Numbers as sequences of bytes.  `ByteOrder.write` gives a number a fixed count of bytes and
`ByteOrder.read` takes any count back; the big order is the little one reversed.
-/

namespace WireSpec

abbrev Bytes : Type := List UInt8

inductive ByteOrder where
  | big
  | little
  deriving DecidableEq, Repr

namespace ByteOrder

def name : ByteOrder → String
  | big => "big"
  | little => "little"

def ofName? : String → Option ByteOrder
  | "big" | "be" => some big
  | "little" | "le" => some little
  | _ => none

/-- The number whose bytes, least first, are given. -/
def readLittle : Bytes → Nat
  | [] => 0
  | b :: rest => b.toNat + 256 * readLittle rest

/-- The `count` lowest bytes of a number, least first. -/
def writeLittle : Nat → Nat → Bytes
  | 0, _ => []
  | count + 1, n => UInt8.ofNat n :: writeLittle count (n / 256)

def read : ByteOrder → Bytes → Nat
  | big, raw => readLittle raw.reverse
  | little, raw => readLittle raw

def write : ByteOrder → Nat → Nat → Bytes
  | big, count, n => (writeLittle count n).reverse
  | little, count, n => writeLittle count n

@[simp] theorem length_writeLittle (count n : Nat) : (writeLittle count n).length = count := by
  induction count generalizing n with
  | zero => rfl
  | succ count ih => simp [writeLittle, ih]

@[simp] theorem length_write (order : ByteOrder) (count n : Nat) :
    (order.write count n).length = count := by
  cases order <;> simp [write]

end ByteOrder

end WireSpec
