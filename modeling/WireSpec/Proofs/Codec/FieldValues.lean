import WireSpec.Proofs.Codec.FieldBytes
/-!
# Reading back what was written

Numbers, characters and texts are read as the very values they were written from, where the value
is of the kind that decoding gives for the type of the field.  A value of another kind may be
written too, but comes back as one of this kind.
-/

namespace WireSpec

namespace ByteOrder

theorem readLittle_writeLittle {count n : Nat} (h : n < 256 ^ count) :
    readLittle (writeLittle count n) = n := by
  induction count generalizing n with
  | zero =>
      have hzero : n = 0 := by simpa using h
      rw [hzero]
      rfl
  | succ count ih =>
      have hquotient : n / 256 < 256 ^ count := by
        rw [Nat.pow_succ] at h
        exact Nat.div_lt_of_lt_mul (by omega)
      have hbyte : (UInt8.ofNat n).toNat = n % 256 := UInt8.toNat_ofNat'
      rw [writeLittle, readLittle, ih hquotient, hbyte]
      omega

theorem read_write (order : ByteOrder) {count n : Nat} (h : n < 256 ^ count) :
    order.read (order.write count n) = n := by
  cases order with
  | big => rw [read, write, List.reverse_reverse, readLittle_writeLittle h]
  | little => exact readLittle_writeLittle h

end ByteOrder

namespace IntKind

variable {k : IntKind}

theorem toBits_lt (x : k.Number) : toBits x < k.modulus := by
  have hpos : (0 : Int) < k.modulus := Int.natCast_pos.mpr k.modulus_pos
  have hlow := Int.emod_nonneg x.val (Int.ne_of_gt hpos)
  have hhigh := Int.emod_lt_of_pos x.val hpos
  unfold toBits
  omega

theorem ofBits_toBits (x : k.Number) : k.ofBits (toBits x) = x := by
  have hpos : (0 : Int) < k.modulus := Int.natCast_pos.mpr k.modulus_pos
  have hbits : (toBits x : Int) = x.val % k.modulus := by
    rw [toBits, Int.toNat_of_nonneg (Int.emod_nonneg _ (Int.ne_of_gt hpos))]
  have hrange := k.bound_sub_least
  obtain ⟨hlow, hhigh⟩ := x.property
  apply Subtype.ext
  change ((toBits x : Int) - k.least) % (k.modulus : Int) + k.least = x.val
  have hshift : x.val % (k.modulus : Int) - k.least =
      x.val - k.least - (k.modulus : Int) * (x.val / k.modulus) := by
    have hdiv := Int.emod_add_mul_ediv x.val k.modulus
    omega
  rw [hbits, hshift, Int.sub_mul_emod_self_left, Int.emod_eq_of_lt (by omega) (by omega)]
  omega

end IntKind

namespace Text

/-! ### Texts -/

theorem utf8Text?_utf8Bytes (s : String) : utf8Text? (utf8Bytes s) = some s := by
  unfold utf8Text? utf8Bytes String.fromUTF8?
  rw [Array.toArray_toList, String.toUTF8_eq_toByteArray, dif_pos s.isValidUTF8]
  rfl

theorem decodeSingle_of_encodeSingle {bound : Nat} (hbound : bound ≤ 256) {text : List Char}
    {raw : Bytes} (h : encodeSingle bound text = some raw) :
    decodeSingle bound raw = some text := by
  unfold encodeSingle at h
  split at h
  · rename_i hall
    obtain rfl := Option.some.inj h
    have hsmall : ∀ c ∈ text, c.toNat < bound := by simpa using hall
    have hbyte : ∀ c ∈ text, (UInt8.ofNat c.toNat).toNat = c.toNat := by
      intro c hc
      have hlt := hsmall c hc
      rw [UInt8.toNat_ofNat']
      omega
    have hbounded : (text.map fun c => UInt8.ofNat c.toNat).all
        (fun b => decide (b.toNat < bound)) = true := by
      simp only [List.all_map, List.all_eq_true, Function.comp_apply, decide_eq_true_eq]
      intro c hc
      rw [hbyte c hc]
      exact hsmall c hc
    have hsame : (text.map fun c => UInt8.ofNat c.toNat).map (fun b => Char.ofNat b.toNat) =
        text := by
      rw [List.map_map]
      refine (List.map_congr_left fun c hc => ?_).trans (List.map_id text)
      simp [hbyte c hc]
    rw [decodeSingle, if_pos hbounded, hsame]
  · cases h

/-- A code point is outside of the range that is kept for surrogates. -/
theorem toNat_valid (c : Char) : c.toNat < 0xD800 ∨ 0xE000 ≤ c.toNat ∧ c.toNat < 0x110000 := by
  have hvalid : c.toNat.isValidChar := c.valid
  rcases hvalid with hlow | ⟨hlow, hhigh⟩
  · exact Or.inl hlow
  · exact Or.inr ⟨hlow, hhigh⟩

theorem unitsText?_cons_of_plain {u : Nat} (h : (isHighSurrogate u || isLowSurrogate u) = false)
    (units : List Nat) :
    unitsText? (u :: units) = (unitsText? units).map (Char.ofNat u :: ·) := by
  obtain ⟨hhigh, hlow⟩ := Bool.or_eq_false_iff.mp h
  cases units with
  | nil => simp [unitsText?, hhigh, hlow]
  | cons v rest => simp [unitsText?, hhigh, hlow]

theorem unitsText?_charUnits_append (c : Char) (units : List Nat) :
    unitsText? (charUnits c ++ units) = (unitsText? units).map (c :: ·) := by
  have hvalid := toNat_valid c
  by_cases hbasic : c.toNat < 0x10000
  · have hplain : (isHighSurrogate c.toNat || isLowSurrogate c.toNat) = false := by
      simp only [isHighSurrogate, isLowSurrogate, Bool.or_eq_false_iff, decide_eq_false_iff_not]
      omega
    rw [charUnits, if_pos hbasic, List.singleton_append, unitsText?_cons_of_plain hplain,
      Char.ofNat_toNat]
  · have hhigh : isHighSurrogate (0xD800 + (c.toNat - 0x10000) / 0x400) = true := by
      simp only [isHighSurrogate, decide_eq_true_eq]
      omega
    have hlow : isLowSurrogate (0xDC00 + (c.toNat - 0x10000) % 0x400) = true := by
      simp only [isLowSurrogate, decide_eq_true_eq]
      omega
    have hpoint : 0x10000 + (0xD800 + (c.toNat - 0x10000) / 0x400 - 0xD800) * 0x400 +
        (0xDC00 + (c.toNat - 0x10000) % 0x400 - 0xDC00) = c.toNat := by omega
    rw [charUnits, if_neg hbasic, List.cons_append, List.singleton_append]
    simp only [unitsText?, hhigh, hlow, if_true]
    rw [hpoint, Char.ofNat_toNat]

theorem unitsText?_flatMap_charUnits (text : List Char) :
    unitsText? (text.flatMap charUnits) = some text := by
  induction text with
  | nil => rfl
  | cons c rest ih => rw [List.flatMap_cons, unitsText?_charUnits_append, ih, Option.map_some]

theorem charUnits_lt (c : Char) : ∀ u ∈ charUnits c, u < 0x10000 := by
  have hvalid := toNat_valid c
  unfold charUnits
  split
  · simpa
  · rename_i hlarge
    simp only [List.forall_mem_cons]
    exact ⟨by omega, by omega, by simp⟩

theorem byteUnits?_flatMap_write (order : ByteOrder) {units : List Nat}
    (h : ∀ u ∈ units, u < 0x10000) :
    byteUnits? order (units.flatMap (order.write 2)) = some units := by
  induction units with
  | nil => rfl
  | cons u rest ih =>
      obtain ⟨hu, hrest⟩ := List.forall_mem_cons.mp h
      obtain ⟨a, b, hpair⟩ : ∃ a b, order.write 2 u = [a, b] := by
        cases order <;> exact ⟨_, _, rfl⟩
      have hread : order.read [a, b] = u := by
        rw [← hpair]
        exact order.read_write (by simpa using hu)
      rw [List.flatMap_cons, hpair]
      change (byteUnits? order (rest.flatMap (order.write 2))).map (order.read [a, b] :: ·) = _
      rw [ih hrest, hread, Option.map_some]

theorem Encoding.decode_of_encode {e : Encoding} {s : String} {raw : Bytes}
    (h : e.encode s = some raw) : e.decode raw = some s := by
  cases e with
  | utf8 =>
      obtain rfl := Option.some.inj h
      exact utf8Text?_utf8Bytes s
  | ascii =>
      rw [decode, decodeSingle_of_encodeSingle (by decide) h, Option.map_some, String.ofList_toList]
  | latin1 =>
      rw [decode, decodeSingle_of_encodeSingle (by decide) h, Option.map_some, String.ofList_toList]
  | utf16 order =>
      obtain rfl := Option.some.inj h
      have hunits : ∀ u ∈ s.toList.flatMap charUnits, u < 0x10000 := by
        intro u hu
        obtain ⟨c, _, hc⟩ := List.mem_flatMap.mp hu
        exact charUnits_lt c u hc
      rw [decode, byteUnits?_flatMap_write order hunits, Option.bind_some,
        unitsText?_flatMap_charUnits, Option.map_some, String.ofList_toList]

end Text

/-- The type of the fields for which decoding gives such a value. -/
def Value.type : Value → ScalarType
  | int k _ => .int k
  | float32 _ => .float32
  | float64 _ => .float64
  | bool _ => .bool
  | char _ => .char
  | string _ => .string
  | bytes _ => .bytes
  | null => .void

namespace FieldPlan

variable {f : FieldPlan} {raw : Bytes} {v : Value}

theorem type_of_decode (h : f.decode raw = .ok v) : v.type = f.type := by
  unfold decode at h
  split at h <;> try (cases h; simp [Value.type, *])
  split at h <;> cases h
  simp [Value.type, *]

theorem encode_eq_ok : f.encode v = .ok raw ↔
    f.write v = .ok raw ∧ ∀ n, f.width = .fixed n → raw.length = n := by
  unfold encode
  simp only [except_bind_eq_ok]
  cases hwidth : f.width with
  | fixed size =>
      constructor
      · rintro ⟨raw', hwrite, h⟩
        by_cases hsize : raw'.length = size
        · simp only [hsize, if_true, pure, Except.pure, Except.ok.injEq] at h
          subst h
          exact ⟨hwrite, by simpa using hsize⟩
        · simp only [hsize, if_false] at h
          cases h
      · rintro ⟨hwrite, hsize⟩
        refine ⟨raw, hwrite, ?_⟩
        simp only [hsize size rfl, if_true]
        rfl
  | dynamic e => simp [pure, Except.pure]
  | remaining => simp [pure, Except.pure]

theorem toNat_of_charByte? {c : Char} {b : UInt8} (h : charByte? c.toNat = some b) :
    b.toNat = c.toNat := by
  have hvalid := Text.toNat_valid c
  have hsmall : c.toNat % UInt32.size = c.toNat := Nat.mod_eq_of_lt (by
    have hsize : UInt32.size = 4294967296 := rfl
    omega)
  simp only [charByte?, Int.toNat_natCast, hsmall] at h
  split at h
  · rename_i hbound
    obtain rfl := Option.some.inj h
    rw [UInt8.toNat_ofNat']
    omega
  · cases h

theorem bytesOf?_of_write (hstring : f.type ≠ .string) (h : f.write v = .ok raw) :
    f.bytesOf? v = some raw := by
  unfold write at h
  split at h
  · rename_i htype
    exact absurd htype hstring
  · split at h
    · rename_i raw' hraw
      exact hraw.trans (congrArg some (Except.ok.inj h))
    · cases h

/-- A value of the kind that decoding gives is read from the bytes it is written as. -/
theorem decode_of_write (hfloat : f.type.isFloat = false) (hv : v.type = f.type)
    (hwrite : f.write v = .ok raw) : f.decode raw = .ok v := by
  cases v with
  | int k x =>
      have htype : f.type = .int k := hv.symm
      have hbytes := bytesOf?_of_write (by simp [htype]) hwrite
      simp only [bytesOf?, htype, Value.integer?, Option.bind_eq_bind, Option.bind_some,
        IntKind.ofInt?_val, pure, Option.some.injEq] at hbytes
      subst hbytes
      have hbits : IntKind.toBits x < 256 ^ k.size := k.modulus_eq_pow ▸ IntKind.toBits_lt x
      simp only [decode, htype]
      rw [f.order.read_write hbits, IntKind.ofBits_toBits]
  | float32 bits => simp [← hv, Value.type, ScalarType.isFloat] at hfloat
  | float64 bits => simp [← hv, Value.type, ScalarType.isFloat] at hfloat
  | bool b =>
      have htype : f.type = .bool := hv.symm
      have hbytes := bytesOf?_of_write (by simp [htype]) hwrite
      cases b <;>
        · simp only [bytesOf?, htype, Value.integer?, Option.map_some, Option.some.injEq] at hbytes
          subst hbytes
          simp [decode, htype, ByteOrder.read_singleton]
  | char c =>
      have htype : f.type = .char := hv.symm
      have hbytes := bytesOf?_of_write (by simp [htype]) hwrite
      simp only [bytesOf?, htype, Value.integer?, Option.bind_eq_bind, Option.bind_some,
        pure, Option.bind_eq_some_iff, Option.some.injEq] at hbytes
      obtain ⟨b, hb, rfl⟩ := hbytes
      simp only [decode, htype]
      rw [ByteOrder.read_singleton, toNat_of_charByte? hb, Char.ofNat_toNat]
  | string s =>
      have htype : f.type = .string := hv.symm
      simp only [write, htype, Value.string?] at hwrite
      split at hwrite
      · rename_i raw' hraw
        obtain rfl := Except.ok.inj hwrite
        simp only [decode, htype, Text.Encoding.decode_of_encode hraw]
      · cases hwrite
  | bytes b =>
      have htype : f.type = .bytes := hv.symm
      have hbytes := bytesOf?_of_write (by simp [htype]) hwrite
      simp only [bytesOf?, htype, Value.bytes?, Option.some.injEq] at hbytes
      simp only [decode, htype, hbytes]
  | null =>
      have htype : f.type = .void := hv.symm
      simp only [decode, htype]

theorem decode_of_encode (hfloat : f.type.isFloat = false) (hv : v.type = f.type)
    (h : f.encode v = .ok raw) : f.decode raw = .ok v :=
  decode_of_write hfloat hv (encode_eq_ok.mp h).1

end FieldPlan

end WireSpec
