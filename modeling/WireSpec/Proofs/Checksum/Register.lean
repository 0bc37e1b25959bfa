import WireSpec.Checksum
import WireSpec.Proofs.Codec.FieldBytes
/-!
# The register of a cyclic check

A shift of the register is linear in exclusive or, and none is lost on another where the top bit of
the polynomial is set.  Bytes that fit the register are taken in as one number, the first byte
lowest: they come to as many shifts as they have bits.  So they can be told from what the register
holds behind them; a full register is cleared, or left complemented, by one sequence of them only.
-/

namespace WireSpec.Checksum

/-- The bytes of two sequences are the same but for `count` of them from a position on. -/
def AgreeOutside (start count : Nat) (a b : Bytes) : Prop :=
  ∀ i, i < start ∨ start + count ≤ i → a[i]? = b[i]?

theorem AgreeOutside.exists_burst {start count : Nat} {a b : Bytes}
    (h : AgreeOutside start count a b) (hlength : a.length = b.length) :
    ∃ front burst burst' back, a = front ++ burst ++ back ∧ b = front ++ burst' ++ back ∧
      burst.length = burst'.length ∧ burst.length ≤ count := by
  have hfront : a.take start = b.take start := by
    refine List.ext_getElem? fun i => ?_
    rw [List.getElem?_take, List.getElem?_take]
    split
    · rename_i hi
      exact h i (.inl hi)
    · rfl
  have hback : a.drop (start + count) = b.drop (start + count) := by
    refine List.ext_getElem? fun i => ?_
    rw [List.getElem?_drop, List.getElem?_drop]
    exact h _ (.inr (Nat.le_add_right _ i))
  have hsplit (c : Bytes) :
      c = c.take start ++ (c.drop start).take count ++ c.drop (start + count) := by
    rw [List.append_assoc, ← List.drop_drop, List.take_append_drop, List.take_append_drop]
  refine ⟨a.take start, (a.drop start).take count, (b.drop start).take count,
    a.drop (start + count), hsplit a, ?_, by simp [hlength], by simp⟩
  rw [hfront, hback]
  exact hsplit b

section Register

variable {w : Nat} {polynomial : BitVec w}

/-- One shift of a register of any width. -/
def shift (polynomial x : BitVec w) : BitVec w :=
  if x.getLsbD 0 then (x >>> 1) ^^^ polynomial else x >>> 1

/-- What the register holds behind some bytes. -/
def feed (polynomial x : BitVec w) (data : Bytes) : BitVec w :=
  data.foldl (fun r b => (shift polynomial)^[8] (r ^^^ BitVec.ofNat w b.toNat)) x

theorem feed_append (x : BitVec w) (front back : Bytes) :
    feed polynomial x (front ++ back) = feed polynomial (feed polynomial x front) back :=
  List.foldl_append

/-! ### Shifts are linear -/

theorem shift_xor (x y : BitVec w) :
    shift polynomial (x ^^^ y) = shift polynomial x ^^^ shift polynomial y := by
  have hcancel (u v : BitVec w) : u ^^^ v = (u ^^^ polynomial) ^^^ (v ^^^ polynomial) := by
    rw [BitVec.xor_assoc, BitVec.xor_comm v, ← BitVec.xor_assoc polynomial, BitVec.xor_self,
      BitVec.zero_xor]
  simp only [shift, BitVec.getLsbD_xor, BitVec.ushiftRight_xor_distrib]
  cases x.getLsbD 0 <;> cases y.getLsbD 0
  · simp
  · simp [BitVec.xor_assoc]
  · simp only [Bool.xor_false, if_true, Bool.false_eq_true, if_false]
    ac_rfl
  · simpa using hcancel (x >>> 1) (y >>> 1)

theorem shifts_xor (n : Nat) (x y : BitVec w) :
    (shift polynomial)^[n] (x ^^^ y) =
      (shift polynomial)^[n] x ^^^ (shift polynomial)^[n] y := by
  induction n with
  | zero => rfl
  | succ n ih => simp only [Function.iterate_succ_apply', ih, shift_xor]

/-- A bit that falls out shows in the top bit, which shifting leaves clear. -/
theorem eq_zero_of_shift (hp : polynomial.msb = true) {x : BitVec w}
    (h : shift polynomial x = 0#w) : x = 0#w := by
  have hclear : (x >>> 1).msb = false := by simp
  unfold shift at h
  split at h
  · rw [BitVec.xor_eq_zero_iff.mp h, hp] at hclear
    cases hclear
  · rename_i hlow
    refine BitVec.eq_of_getLsbD_eq fun i _ => ?_
    cases i with
    | zero => simpa using hlow
    | succ i =>
        have hbit := congrArg (·.getLsbD i) h
        simpa [Nat.add_comm] using hbit

theorem shift_injective (hp : polynomial.msb = true) : Function.Injective (shift polynomial) := by
  intro x y h
  refine BitVec.xor_eq_zero_iff.mp (eq_zero_of_shift hp ?_)
  rw [shift_xor, h, BitVec.xor_self]

theorem shifts_zero (n : Nat) : (shift polynomial)^[n] 0#w = 0#w :=
  Function.iterate_fixed (by simp [shift]) n

/-! ### Bytes as one number -/

theorem shift_two_mul {m : Nat} (h : 2 * m < 2 ^ w) :
    shift polynomial (BitVec.ofNat w (2 * m)) = BitVec.ofNat w m := by
  have hlow : (BitVec.ofNat w (2 * m)).getLsbD 0 = false := by simp [BitVec.getLsbD_ofNat]
  rw [shift, hlow, if_neg Bool.false_ne_true]
  apply BitVec.eq_of_toNat_eq
  rw [BitVec.toNat_ushiftRight, BitVec.toNat_ofNat, BitVec.toNat_ofNat, Nat.mod_eq_of_lt h,
    Nat.mod_eq_of_lt (by omega), Nat.shiftRight_eq_div_pow]
  omega

/-- A number whose low bits are clear only moves down. -/
theorem shifts_two_pow_mul (n : Nat) {m : Nat} (h : 2 ^ n * m < 2 ^ w) :
    (shift polynomial)^[n] (BitVec.ofNat w (2 ^ n * m)) = BitVec.ofNat w m := by
  induction n with
  | zero => simp
  | succ n ih =>
      have hpow : 2 ^ (n + 1) * m = 2 * (2 ^ n * m) := by rw [Nat.pow_succ]; ac_rfl
      rw [hpow] at h ⊢
      rw [Function.iterate_succ_apply, shift_two_mul h, ih (by omega)]

theorem ofNat_add_mul (b : UInt8) (m : Nat) :
    BitVec.ofNat w (b.toNat + 256 * m) = BitVec.ofNat w b.toNat ^^^ BitVec.ofNat w (2 ^ 8 * m) := by
  have hb : b.toNat < 2 ^ 8 := b.toNat_lt
  refine BitVec.eq_of_getLsbD_eq fun i hi => ?_
  rw [Nat.add_comm, show 256 = 2 ^ 8 from rfl, BitVec.getLsbD_xor, BitVec.getLsbD_ofNat,
    BitVec.getLsbD_ofNat, BitVec.getLsbD_ofNat, Nat.testBit_two_pow_mul_add m hb,
    Nat.testBit_two_pow_mul]
  by_cases h : i < 8
  · simp [h, hi, Nat.not_le_of_lt h]
  · have hhigh : b.toNat.testBit i = false :=
      Nat.testBit_lt_two_pow (Nat.lt_of_lt_of_le hb (Nat.pow_le_pow_right (by decide) (by omega)))
    simp [h, hi, hhigh, Nat.le_of_not_lt h]

theorem readLittle_lt_two_pow (data : Bytes) :
    ByteOrder.readLittle data < 2 ^ (8 * data.length) := by
  rw [Nat.pow_mul]
  exact ByteOrder.readLittle_lt data

/-- Bytes that fit the register are added to it as one number before all of the shifts. -/
theorem feed_eq_shifts (x : BitVec w) {data : Bytes} (h : 8 * data.length ≤ w) :
    feed polynomial x data =
      (shift polynomial)^[8 * data.length] (x ^^^ BitVec.ofNat w (ByteOrder.readLittle data)) := by
  induction data generalizing x with
  | nil => simp [feed, ByteOrder.readLittle]
  | cons b rest ih =>
      have hrest : 8 * rest.length ≤ w := by
        rw [List.length_cons] at h
        omega
      -- The later bytes come in eight shifts later, as they stand above the first.
      have hlater : (shift polynomial)^[8] (BitVec.ofNat w (2 ^ 8 * ByteOrder.readLittle rest)) =
          BitVec.ofNat w (ByteOrder.readLittle rest) := by
        apply shifts_two_pow_mul
        have hbound : 2 ^ (8 * (b :: rest).length) ≤ 2 ^ w := Nat.pow_le_pow_right (by decide) h
        have hread := readLittle_lt_two_pow rest
        rw [List.length_cons, Nat.mul_succ, Nat.pow_add] at hbound
        omega
      calc feed polynomial x (b :: rest)
        _ = feed polynomial ((shift polynomial)^[8] (x ^^^ BitVec.ofNat w b.toNat)) rest := rfl
        _ = (shift polynomial)^[8 * rest.length] ((shift polynomial)^[8]
              (x ^^^ BitVec.ofNat w b.toNat) ^^^
                BitVec.ofNat w (ByteOrder.readLittle rest)) := ih _ hrest
        _ = (shift polynomial)^[8 * rest.length + 8]
              (x ^^^ BitVec.ofNat w (ByteOrder.readLittle (b :: rest))) := by
          rw [← hlater, ← shifts_xor, ← Function.iterate_add_apply, BitVec.xor_assoc,
            ← ofNat_add_mul]
          rfl

theorem eq_of_ofNat_readLittle {data data' : Bytes} (hlength : data.length = data'.length)
    (hfits : 8 * data.length ≤ w)
    (h : BitVec.ofNat w (ByteOrder.readLittle data) = BitVec.ofNat w (ByteOrder.readLittle data')) :
    data = data' := by
  have hbound : 2 ^ (8 * data.length) ≤ 2 ^ w := Nat.pow_le_pow_right (by decide) hfits
  have hdata := readLittle_lt_two_pow data
  have hdata' := readLittle_lt_two_pow data'
  rw [← hlength] at hdata'
  have hnumber := congrArg BitVec.toNat h
  rw [BitVec.toNat_ofNat, BitVec.toNat_ofNat, Nat.mod_eq_of_lt (by omega),
    Nat.mod_eq_of_lt (by omega)] at hnumber
  rw [← ByteOrder.writeLittle_readLittle data, ← ByteOrder.writeLittle_readLittle data', hnumber,
    hlength]

/-! ### Nothing is lost -/

section

variable (hp : polynomial.msb = true)

include hp

/-- Registers that differ still differ behind the same bytes. -/
theorem feed_injective (data : Bytes) : Function.Injective (feed polynomial · data) := by
  induction data with
  | nil => exact fun x y h => h
  | cons b rest ih =>
      intro x y h
      have hshifts := (shift_injective hp).iterate 8 (ih h)
      exact (BitVec.xor_left_inj _).mp hshifts

/-- A burst of bytes that fits the register shows in it, whatever stands before and behind. -/
theorem eq_of_feed_eq (x : BitVec w) {front burst burst' back : Bytes}
    (hlength : burst.length = burst'.length) (hfits : 8 * burst.length ≤ w)
    (h : feed polynomial x (front ++ burst ++ back) =
      feed polynomial x (front ++ burst' ++ back)) : burst = burst' := by
  simp only [feed_append] at h
  have hburst := feed_injective hp back h
  have hfits' : 8 * burst'.length ≤ w := hlength ▸ hfits
  simp only [feed_eq_shifts (feed polynomial x front) hfits,
    feed_eq_shifts (feed polynomial x front) hfits', ← hlength] at hburst
  have hnumber := (shift_injective hp).iterate _ hburst
  exact eq_of_ofNat_readLittle hlength hfits ((BitVec.xor_right_inj _).mp hnumber)

/-- Bytes that fill the register leave any state of it behind that shifts can reach, but only one
sequence of them does. -/
theorem feed_eq_shifts_iff (x y : BitVec w) {data : Bytes} (h : 8 * data.length = w) :
    feed polynomial x data = (shift polynomial)^[w] y ↔
      ByteOrder.readLittle data = (x ^^^ y).toNat := by
  have hnumber : BitVec.ofNat w (ByteOrder.readLittle data) = x ^^^ y ↔
      ByteOrder.readLittle data = (x ^^^ y).toNat := by
    have hread := readLittle_lt_two_pow data
    rw [h] at hread
    rw [← BitVec.toNat_inj, BitVec.toNat_ofNat, Nat.mod_eq_of_lt hread]
  rw [feed_eq_shifts x (Nat.le_of_eq h), h, ((shift_injective hp).iterate w).eq_iff, ← hnumber]
  constructor
  · rintro rfl
    rw [← BitVec.xor_assoc, BitVec.xor_self, BitVec.zero_xor]
  · intro hdata
    rw [hdata, ← BitVec.xor_assoc, BitVec.xor_self, BitVec.zero_xor]

/-- Two sequences of one length that leave the same behind are the same if they differ only within
as many adjacent bytes as fit the register. -/
theorem eq_of_agreeOutside_of_feed_eq (x : BitVec w) {start count : Nat} {a b : Bytes}
    (hfits : 8 * count ≤ w) (hlength : a.length = b.length) (hagree : AgreeOutside start count a b)
    (h : feed polynomial x a = feed polynomial x b) : a = b := by
  obtain ⟨front, burst, burst', back, rfl, rfl, hburst, hcount⟩ := hagree.exists_burst hlength
  rw [eq_of_feed_eq hp x hburst (by omega) h]

end

end Register

/-! ### Registers of machine words -/

section

variable {α : Type} {w : Nat} {polynomial : BitVec w} {bits : α → BitVec w} {turn : α → α}
  {add : α → UInt8 → α}

theorem bits_repeat (hturn : ∀ x, bits (turn x) = shift polynomial (bits x)) (n : Nat) (x : α) :
    bits (Nat.repeat turn n x) = (shift polynomial)^[n] (bits x) := by
  induction n with
  | zero => rfl
  | succ n ih => rw [Nat.repeat, hturn, ih, Function.iterate_succ_apply']

/-- A register of another type goes along with one of bits if each of its shifts and additions
does. -/
theorem bits_foldl (hturn : ∀ x, bits (turn x) = shift polynomial (bits x))
    (hadd : ∀ x b, bits (add x b) = bits x ^^^ BitVec.ofNat w b.toNat) (x : α) (data : Bytes) :
    bits (data.foldl (fun r b => Nat.repeat turn 8 (add r b)) x) =
      feed polynomial (bits x) data := by
  induction data generalizing x with
  | nil => rfl
  | cons b rest ih =>
      rw [List.foldl_cons, ih, bits_repeat hturn, hadd]
      rfl

end

theorem and_one_eq_one {n : Nat} (x : BitVec (n + 1)) :
    x &&& 1#(n + 1) = 1#(n + 1) ↔ x.getLsbD 0 = true := by
  rw [BitVec.and_one_eq_setWidth_ofBool_getLsbD]
  cases x.getLsbD 0 <;> simp

theorem toBitVec_shift16 (polynomial x : UInt16) :
    (shift16 polynomial x).toBitVec = shift polynomial.toBitVec x.toBitVec := by
  have hlow : x &&& 1 = 1 ↔ x.toBitVec.getLsbD 0 = true := by
    rw [← UInt16.toBitVec_inj]
    exact and_one_eq_one x.toBitVec
  simp only [shift16, shift, hlow]
  split <;> simp

theorem toBitVec_shift32 (polynomial x : UInt32) :
    (shift32 polynomial x).toBitVec = shift polynomial.toBitVec x.toBitVec := by
  have hlow : x &&& 1 = 1 ↔ x.toBitVec.getLsbD 0 = true := by
    rw [← UInt32.toBitVec_inj]
    exact and_one_eq_one x.toBitVec
  simp only [shift32, shift, hlow]
  split <;> simp

theorem toBitVec_crc16 (data : Bytes) :
    (crc16 data).toBitVec = feed 0xA001#16 0xFFFF#16 data := by
  have hadd (x : UInt16) (b : UInt8) :
      (x ^^^ b.toUInt16).toBitVec = x.toBitVec ^^^ BitVec.ofNat 16 b.toNat := by
    rw [UInt16.toBitVec_xor, UInt8.toBitVec_toUInt16, ← BitVec.ofNat_toNat]
    rfl
  exact bits_foldl (toBitVec_shift16 0xA001) hadd 0xFFFF data

theorem toBitVec_crc32 (data : Bytes) :
    (crc32 data).toBitVec = ~~~feed 0xEDB88320#32 0xFFFFFFFF#32 data := by
  have hadd (x : UInt32) (b : UInt8) :
      (x ^^^ b.toUInt32).toBitVec = x.toBitVec ^^^ BitVec.ofNat 32 b.toNat := by
    rw [UInt32.toBitVec_xor, UInt8.toBitVec_toUInt32, ← BitVec.ofNat_toNat]
    rfl
  rw [crc32, UInt32.toBitVec_not]
  exact congrArg _ (bits_foldl (toBitVec_shift32 0xEDB88320) hadd 0xFFFFFFFF data)

/-! ### The two checks -/

/-- Two bytes behind some data make the check zero exactly if they are its check, low byte first. -/
theorem crc16_append_eq_zero_iff {data check : Bytes} (h : check.length = 2) :
    crc16 (data ++ check) = 0 ↔ ByteOrder.readLittle check = (crc16 data).toNat := by
  have hp : (0xA001#16).msb = true := by decide
  have hbits : 8 * check.length = 16 := by omega
  have hiff := feed_eq_shifts_iff hp (crc16 data).toBitVec 0#16 hbits
  rw [shifts_zero, BitVec.xor_zero] at hiff
  rw [← UInt16.toBitVec_inj, toBitVec_crc16, feed_append, ← toBitVec_crc16]
  exact hiff

/-- What is left behind bytes that complement the register. -/
theorem shifts_allOnes : (shift 0xEDB88320#32)^[32] (BitVec.allOnes 32) = ~~~0x2144DF1C#32 := by
  decide +kernel

/-- Four bytes behind some data leave this residue exactly if they are its check, low byte first. -/
theorem crc32_append_eq_residue_iff {data check : Bytes} (h : check.length = 4) :
    crc32 (data ++ check) = 0x2144DF1C ↔ ByteOrder.readLittle check = (crc32 data).toNat := by
  have hp : (0xEDB88320#32).msb = true := by decide
  have hbits : 8 * check.length = 32 := by omega
  have hiff := feed_eq_shifts_iff hp (feed 0xEDB88320#32 0xFFFFFFFF#32 data) (BitVec.allOnes 32)
    hbits
  rw [shifts_allOnes, BitVec.xor_allOnes, ← feed_append, ← toBitVec_crc32] at hiff
  rw [← UInt32.toBitVec_inj, toBitVec_crc32, BitVec.not_eq_comm]
  exact hiff

/-- The check tells sequences of one length apart that differ within two adjacent bytes. -/
theorem eq_of_agreeOutside_of_crc16_eq {start : Nat} {a b : Bytes} (hlength : a.length = b.length)
    (hagree : AgreeOutside start 2 a b) (h : crc16 a = crc16 b) : a = b := by
  rw [← UInt16.toBitVec_inj, toBitVec_crc16, toBitVec_crc16] at h
  exact eq_of_agreeOutside_of_feed_eq (by decide) _ (by decide) hlength hagree h

/-- The longer check does within four. -/
theorem eq_of_agreeOutside_of_crc32_eq {start : Nat} {a b : Bytes} (hlength : a.length = b.length)
    (hagree : AgreeOutside start 4 a b) (h : crc32 a = crc32 b) : a = b := by
  rw [← UInt32.toBitVec_inj, toBitVec_crc32, toBitVec_crc32, BitVec.not_inj] at h
  exact eq_of_agreeOutside_of_feed_eq (by decide) _ (by decide) hlength hagree h

end WireSpec.Checksum
