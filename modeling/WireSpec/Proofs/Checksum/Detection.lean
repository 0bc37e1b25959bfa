import WireSpec.Proofs.Checksum.Register
import WireSpec.Proofs.Codec.FieldValues
/-!
# What the checks tell

Data with its check behind it leaves a residue that does not depend on the data, and the bytes of
the check are the only ones that do.  Two sequences of one length that differ within a few adjacent
bytes, as many as the check has itself, never have the same check.
-/

namespace WireSpec

theorem ByteOrder.readLittle_eq_iff {raw : Bytes} {count n : Nat} (hlength : raw.length = count)
    (hn : n < 256 ^ count) : readLittle raw = n ↔ raw = writeLittle count n := by
  constructor
  · rintro rfl
    rw [← hlength, writeLittle_readLittle]
  · rintro rfl
    exact readLittle_writeLittle hn

namespace Checksum

/-! ### The longitudinal check -/

def byteSum (data : Bytes) : Nat := (data.map UInt8.toNat).sum

@[simp] theorem byteSum_cons (b : UInt8) (data : Bytes) :
    byteSum (b :: data) = b.toNat + byteSum data := by
  simp [byteSum]

@[simp] theorem byteSum_append (front back : Bytes) :
    byteSum (front ++ back) = byteSum front + byteSum back := by
  simp [byteSum]

theorem toNat_foldl_add (x : UInt8) (data : Bytes) :
    (data.foldl (· + ·) x).toNat = (x.toNat + byteSum data) % 256 := by
  induction data generalizing x with
  | nil => simp [byteSum]
  | cons b rest ih =>
      rw [List.foldl_cons, ih, UInt8.toNat_add, byteSum_cons]
      omega

theorem byteSum_add_lrc (data : Bytes) : (byteSum data + (lrc data).toNat) % 256 = 0 := by
  have hsum := toNat_foldl_add 0 data
  have hsize : UInt8.size = 256 := rfl
  rw [lrc, UInt8.toNat_neg, hsum, UInt8.toNat_zero, hsize]
  omega

/-- The check tells sequences apart that differ in one byte. -/
theorem eq_of_agreeOutside_of_lrc_eq {start : Nat} {a b : Bytes} (hlength : a.length = b.length)
    (hagree : AgreeOutside start 1 a b) (h : lrc a = lrc b) : a = b := by
  obtain ⟨front, burst, burst', back, rfl, rfl, hburst, hcount⟩ := hagree.exists_burst hlength
  have hsum := byteSum_add_lrc (front ++ burst ++ back)
  have hsum' := byteSum_add_lrc (front ++ burst' ++ back)
  rw [h] at hsum
  match burst, burst', hburst, hcount with
  | [], [], _, _ => rfl
  | [x], [y], _, _ =>
      simp only [byteSum_append, byteSum_cons] at hsum hsum'
      have hx := x.toNat_lt
      have hy := y.toNat_lt
      have hxy : x = y := UInt8.toNat_inj.mp (by omega)
      rw [hxy]

/-! ### All three -/

theorem agreeOutside_burst (front burst burst' back : Bytes)
    (hlength : burst.length = burst'.length) :
    AgreeOutside front.length burst.length (front ++ burst ++ back) (front ++ burst' ++ back) := by
  rintro i (hi | hi)
  · rw [List.append_assoc, List.append_assoc, List.getElem?_append_left hi,
      List.getElem?_append_left hi]
  · have hi' : (front ++ burst).length ≤ i := by rwa [List.length_append]
    have hi'' : (front ++ burst').length ≤ i := by rwa [List.length_append, ← hlength]
    rw [List.getElem?_append_right hi', List.getElem?_append_right hi'', List.length_append,
      List.length_append, hlength]

/-- Two bytes behind some data clear the shorter cyclic check exactly if they are the check of the
data, low byte first.  The longer one is left with a constant by its own four bytes, and the
longitudinal check adds up to zero with the data. -/
theorem residues (data : Bytes) :
    (∀ x y : UInt8, crc16 (data ++ [x, y]) = 0 ↔
      [x, y] = ByteOrder.little.write 2 (crc16 data).toNat) ∧
    crc32 (data ++ ByteOrder.little.write 4 (crc32 data).toNat) = 0x2144DF1C ∧
    (byteSum data + (lrc data).toNat) % 256 = 0 := by
  refine ⟨fun x y => ?_, ?_, byteSum_add_lrc data⟩
  · have hcheck : [x, y].length = 2 := rfl
    rw [crc16_append_eq_zero_iff hcheck, ByteOrder.readLittle_eq_iff hcheck (crc16 data).toNat_lt]
    rfl
  · rw [crc32_append_eq_residue_iff (ByteOrder.length_write _ _ _)]
    exact ByteOrder.readLittle_writeLittle (crc32 data).toNat_lt

/-- Two different sequences of one length have different checks if they differ only within two
adjacent bytes, four, or one. -/
theorem bursts_detected {a b : Bytes} (hlength : a.length = b.length) (hne : a ≠ b)
    (start : Nat) :
    (AgreeOutside start 2 a b → crc16 a ≠ crc16 b) ∧
    (AgreeOutside start 4 a b → crc32 a ≠ crc32 b) ∧
    (AgreeOutside start 1 a b → lrc a ≠ lrc b) := by
  refine ⟨fun hagree h => hne ?_, fun hagree h => hne ?_, fun hagree h => hne ?_⟩
  · exact eq_of_agreeOutside_of_crc16_eq hlength hagree h
  · exact eq_of_agreeOutside_of_crc32_eq hlength hagree h
  · exact eq_of_agreeOutside_of_lrc_eq hlength hagree h

/-- A request with other bytes in the middle, in all but its ends, and at its end. -/
theorem bursts_detected_request :
    crc16 [1, 3, 0, 0, 0, 2] ≠ crc16 [1, 3, 128, 1, 0, 2] ∧
    crc32 [1, 3, 0, 0, 0, 2] ≠ crc32 [1, 4, 255, 0, 7, 2] ∧
    lrc [1, 3, 0, 0, 0, 2] ≠ lrc [1, 3, 0, 0, 0, 130] := by
  have hmiddle : ([1, 3, 0, 0, 0, 2] : Bytes) ≠ [1, 3, 128, 1, 0, 2] := by decide
  have hinner : ([1, 3, 0, 0, 0, 2] : Bytes) ≠ [1, 4, 255, 0, 7, 2] := by decide
  have hend : ([1, 3, 0, 0, 0, 2] : Bytes) ≠ [1, 3, 0, 0, 0, 130] := by decide
  obtain ⟨hmiddle, -, -⟩ := bursts_detected (by decide) hmiddle 2
  obtain ⟨-, hinner, -⟩ := bursts_detected (by decide) hinner 1
  obtain ⟨-, -, hend⟩ := bursts_detected (by decide) hend 5
  exact ⟨hmiddle (agreeOutside_burst [1, 3] [0, 0] [128, 1] [0, 2] rfl),
    hinner (agreeOutside_burst [1] [3, 0, 0, 0] [4, 255, 0, 7] [2] rfl),
    hend (agreeOutside_burst [1, 3, 0, 0, 0] [2] [130] [] rfl)⟩

end Checksum

end WireSpec
