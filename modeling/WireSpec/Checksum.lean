import WireSpec.ByteOrder
/-!
# Checksums

Two cyclic redundancy checks with reflected polynomials and the longitudinal check.  A cyclic check
is a register that takes in one byte after the other, eight shifts for each.
-/

namespace WireSpec.Checksum

/-- One shift of a 16-bit register; the bit that falls out adds the polynomial. -/
def shift16 (polynomial register : UInt16) : UInt16 :=
  if register &&& 1 = 1 then (register >>> 1) ^^^ polynomial else register >>> 1

def step16 (polynomial register : UInt16) (b : UInt8) : UInt16 :=
  Nat.repeat (shift16 polynomial) 8 (register ^^^ b.toUInt16)

/-- The check of Modbus frames: polynomial `0xA001`, all ones at first. -/
def crc16 (data : Bytes) : UInt16 := data.foldl (step16 0xA001) 0xFFFF

/-- One shift of a 32-bit register. -/
def shift32 (polynomial register : UInt32) : UInt32 :=
  if register &&& 1 = 1 then (register >>> 1) ^^^ polynomial else register >>> 1

def step32 (polynomial register : UInt32) (b : UInt8) : UInt32 :=
  Nat.repeat (shift32 polynomial) 8 (register ^^^ b.toUInt32)

/-- The check of Ethernet frames: polynomial `0xEDB88320`, all ones at first, complemented at the
end. -/
def crc32 (data : Bytes) : UInt32 := ~~~data.foldl (step32 0xEDB88320) 0xFFFFFFFF

/-- The byte that makes the sum of all bytes zero. -/
def lrc (data : Bytes) : UInt8 := -data.foldl (· + ·) 0

end WireSpec.Checksum
