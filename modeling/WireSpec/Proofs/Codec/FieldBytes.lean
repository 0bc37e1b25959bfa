import WireSpec.Proofs.Codec.Occupation
/-!
# Writing back what was read

Numbers, characters and texts are written as the very bytes they were read from.  Of a field, only
truth values and padding lose something: a truth value keeps one bit of its byte, and padding
nothing but its size, where that is stated.
-/

namespace WireSpec

namespace ByteOrder

theorem readLittle_lt (raw : Bytes) : readLittle raw < 256 ^ raw.length := by
  induction raw with
  | nil => simp [readLittle]
  | cons b rest ih =>
      have hb : b.toNat < 256 := b.toNat_lt
      rw [readLittle, List.length_cons, Nat.pow_succ]
      omega

theorem writeLittle_readLittle (raw : Bytes) :
    writeLittle raw.length (readLittle raw) = raw := by
  induction raw with
  | nil => rfl
  | cons b rest ih =>
      have hb : b.toNat < 256 := b.toNat_lt
      have hquotient : (b.toNat + 256 * readLittle rest) / 256 = readLittle rest := by omega
      have hbyte : UInt8.ofNat (b.toNat + 256 * readLittle rest) = b := by
        apply UInt8.toNat_inj.mp
        rw [UInt8.toNat_ofNat']
        omega
      rw [List.length_cons, readLittle, writeLittle, hquotient, hbyte, ih]

theorem read_lt (order : ByteOrder) (raw : Bytes) : order.read raw < 256 ^ raw.length := by
  cases order with
  | big => simpa [read] using readLittle_lt raw.reverse
  | little => exact readLittle_lt raw

theorem write_read (order : ByteOrder) (raw : Bytes) :
    order.write raw.length (order.read raw) = raw := by
  cases order with
  | big =>
      have h := writeLittle_readLittle raw.reverse
      rw [List.length_reverse] at h
      rw [read, write, h, List.reverse_reverse]
  | little => exact writeLittle_readLittle raw

theorem read_singleton (order : ByteOrder) (b : UInt8) : order.read [b] = b.toNat := by
  cases order <;> simp [read, readLittle]

end ByteOrder

namespace IntKind

theorem modulus_eq_pow (k : IntKind) : k.modulus = 256 ^ k.size := by cases k <;> decide

theorem toBits_ofBits {k : IntKind} {n : Nat} (h : n < k.modulus) :
    toBits (k.ofBits n) = n := by
  have hval : (k.ofBits n).val % (k.modulus : Int) = n := by
    have hshift : (n - k.least) % (k.modulus : Int) + k.least =
        n - (k.modulus : Int) * ((n - k.least) / k.modulus) := by
      have hdiv := Int.emod_add_mul_ediv (n - k.least) k.modulus
      omega
    change ((n - k.least) % (k.modulus : Int) + k.least) % (k.modulus : Int) = n
    rw [hshift, Int.sub_mul_emod_self_left]
    exact Int.emod_eq_of_lt (Int.natCast_nonneg n) (Int.ofNat_lt.mpr h)
  rw [toBits, hval, Int.toNat_natCast]

@[simp] theorem ofInt?_val {k : IntKind} (x : k.Number) : k.ofInt? x.val = some x :=
  dif_pos x.property

end IntKind

namespace Text

/-! ### Texts -/

theorem utf8Bytes_of_utf8Text? {raw : Bytes} {s : String} (h : utf8Text? raw = some s) :
    utf8Bytes s = raw := by
  unfold utf8Text? String.fromUTF8? at h
  split at h
  · obtain rfl := Option.some.inj h
    simp [utf8Bytes, String.fromUTF8]
  · cases h

theorem toNat_charOfNat {n : Nat} (h : n.isValidChar) : (Char.ofNat n).toNat = n := by
  simp [Char.ofNat, h, Char.ofNatAux, Char.toNat]

theorem encodeSingle_of_decodeSingle {bound : Nat} {raw : Bytes} {text : List Char}
    (h : decodeSingle bound raw = some text) : encodeSingle bound text = some raw := by
  unfold decodeSingle at h
  split at h
  · rename_i hbound
    obtain rfl := Option.some.inj h
    have hchar (b : UInt8) : (Char.ofNat b.toNat).toNat = b.toNat := by
      have hb : b.toNat < 256 := b.toNat_lt
      exact toNat_charOfNat (Or.inl (by omega))
    have hall : (raw.map fun b => Char.ofNat b.toNat).all
        (fun c => decide (c.toNat < bound)) = true := by
      simpa [List.all_eq_true, hchar] using hbound
    rw [encodeSingle, if_pos hall, List.map_map]
    simp [Function.comp_def, hchar]
  · cases h

theorem charUnits_ofNat_of_lt {u : Nat} (hu : u < 0x10000)
    (h : (isHighSurrogate u || isLowSurrogate u) = false) :
    charUnits (Char.ofNat u) = [u] := by
  simp only [isHighSurrogate, isLowSurrogate, Bool.or_eq_false_iff, decide_eq_false_iff_not] at h
  have hvalid : u.isValidChar := by
    rcases Nat.lt_or_ge u 0xD800 with hlow | hhigh
    · exact Or.inl hlow
    · exact Or.inr ⟨by omega, by omega⟩
  rw [charUnits, toNat_charOfNat hvalid, if_pos hu]

theorem charUnits_ofNat_of_surrogates {u v : Nat} (hu : isHighSurrogate u = true)
    (hv : isLowSurrogate v = true) :
    charUnits (Char.ofNat (0x10000 + (u - 0xD800) * 0x400 + (v - 0xDC00))) = [u, v] := by
  simp only [isHighSurrogate, decide_eq_true_eq] at hu
  simp only [isLowSurrogate, decide_eq_true_eq] at hv
  have hvalid : (0x10000 + (u - 0xD800) * 0x400 + (v - 0xDC00)).isValidChar :=
    Or.inr ⟨by omega, by omega⟩
  have hhigh : 0xD800 + (0x10000 + (u - 0xD800) * 0x400 + (v - 0xDC00) - 0x10000) / 0x400 = u := by
    omega
  have hlow : 0xDC00 + (0x10000 + (u - 0xD800) * 0x400 + (v - 0xDC00) - 0x10000) % 0x400 = v := by
    omega
  rw [charUnits, toNat_charOfNat hvalid, if_neg (by omega), hhigh, hlow]

theorem flatMap_charUnits_of_unitsText? {units : List Nat} {text : List Char}
    (hunits : ∀ u ∈ units, u < 0x10000) (h : unitsText? units = some text) :
    text.flatMap charUnits = units := by
  fun_induction unitsText? units generalizing text with
  | case1 =>
      obtain rfl := Option.some.inj h
      rfl
  | case2 u hu => cases h
  | case3 u hu =>
      obtain rfl := Option.some.inj h
      have hunit := charUnits_ofNat_of_lt (hunits u List.mem_cons_self) (by simpa using hu)
      simp [hunit]
  | case4 u v rest hu hv ih =>
      obtain ⟨later, hlater, rfl⟩ := Option.map_eq_some_iff.mp h
      have hrest : ∀ w ∈ rest, w < 0x10000 := fun w hw =>
        hunits w (List.mem_cons_of_mem u (List.mem_cons_of_mem v hw))
      rw [List.flatMap_cons, charUnits_ofNat_of_surrogates hu hv, ih hrest hlater]
      rfl
  | case5 => cases h
  | case6 => cases h
  | case7 u v rest hu hu' ih =>
      obtain ⟨later, hlater, rfl⟩ := Option.map_eq_some_iff.mp h
      have hunit := charUnits_ofNat_of_lt (hunits u List.mem_cons_self) (by simp [hu, hu'])
      rw [List.flatMap_cons, hunit,
        ih (fun w hw => hunits w (List.mem_cons_of_mem u hw)) hlater]
      rfl

theorem byteUnits?_eq_some {order : ByteOrder} {raw : Bytes} {units : List Nat}
    (h : byteUnits? order raw = some units) :
    units.flatMap (order.write 2) = raw ∧ ∀ u ∈ units, u < 0x10000 := by
  fun_induction byteUnits? order raw generalizing units with
  | case1 =>
      obtain rfl := Option.some.inj h
      simp
  | case2 => cases h
  | case3 a b rest ih =>
      obtain ⟨later, hlater, rfl⟩ := Option.map_eq_some_iff.mp h
      obtain ⟨hbytes, hbound⟩ := ih hlater
      have hpair : order.write 2 (order.read [a, b]) = [a, b] := order.write_read [a, b]
      refine ⟨by rw [List.flatMap_cons, hpair, hbytes]; rfl, ?_⟩
      intro u hu
      rcases List.mem_cons.mp hu with rfl | hu
      · simpa using order.read_lt [a, b]
      · exact hbound u hu

theorem Encoding.encode_of_decode {e : Encoding} {raw : Bytes} {s : String}
    (h : e.decode raw = some s) : e.encode s = some raw := by
  cases e with
  | utf8 =>
      exact congrArg some (utf8Bytes_of_utf8Text? h)
  | ascii =>
      obtain ⟨text, htext, rfl⟩ := Option.map_eq_some_iff.mp h
      simpa [encode] using encodeSingle_of_decodeSingle htext
  | latin1 =>
      obtain ⟨text, htext, rfl⟩ := Option.map_eq_some_iff.mp h
      simpa [encode] using encodeSingle_of_decodeSingle htext
  | utf16 order =>
      obtain ⟨text, htext, rfl⟩ := Option.map_eq_some_iff.mp h
      obtain ⟨units, hunits, htext⟩ := Option.bind_eq_some_iff.mp htext
      obtain ⟨hbytes, hbound⟩ := byteUnits?_eq_some hunits
      rw [encode, String.toList_ofList, flatMap_charUnits_of_unitsText? hbound htext, hbytes]

end Text

def ScalarType.isFloat : ScalarType → Bool
  | float32 | float64 => true
  | _ => false

namespace FieldPlan

/-- Padding whose size is computed from other fields. -/
def IsComputedPadding (f : FieldPlan) : Prop := f.type = .void ∧ ∃ e, f.width = .dynamic e

/-- What is written for the value that was read from `raw`. -/
def canonical (f : FieldPlan) (raw : Bytes) : Bytes :=
  match f.type with
  | .bool => [if f.order.read raw = 0 then 0 else 1]
  | .void => List.replicate (f.fixedWidth.getD 0) 0
  | _ => raw

variable {f : FieldPlan} {raw : Bytes} {v : Value}

theorem Sized.length_eq (hf : f.Sized) (hraw : ∀ n, f.width = .fixed n → raw.length = n)
    {size : Nat} (hsize : f.type.fixedWidth = some size) : raw.length = size :=
  hraw size (hf.fixed size hsize)

theorem charByte?_toNat (b : UInt8) : charByte? (Char.ofNat b.toNat).toNat = some b := by
  have hb : b.toNat < 256 := b.toNat_lt
  have hchar : (Char.ofNat b.toNat).toNat = b.toNat := Text.toNat_charOfNat (Or.inl (by omega))
  have hsmall : b.toNat % UInt32.size = b.toNat :=
    Nat.mod_eq_of_lt (Nat.lt_trans hb (by decide))
  simp [charByte?, hchar, hsmall, hb]

theorem write_of_decode (hf : f.Sized) (hfloat : f.type.isFloat = false)
    (hraw : ∀ n, f.width = .fixed n → raw.length = n) (h : f.decode raw = .ok v) :
    f.write v = .ok (f.canonical raw) := by
  cases htype : f.type with
  | int kind =>
      have hlength : raw.length = kind.size :=
        hf.length_eq hraw (by simp [htype, ScalarType.fixedWidth])
      have hbits : IntKind.toBits (kind.ofBits (f.order.read raw)) = f.order.read raw := by
        apply IntKind.toBits_ofBits
        rw [IntKind.modulus_eq_pow, ← hlength]
        exact f.order.read_lt raw
      simp only [decode, htype, Except.ok.injEq] at h
      subst h
      simp only [write, htype, bytesOf?, canonical, Value.integer?, Option.bind_eq_bind,
        Option.bind_some, IntKind.ofInt?_val]
      rw [hbits, ← hlength, f.order.write_read]
      rfl
  | float32 => simp [htype, ScalarType.isFloat] at hfloat
  | float64 => simp [htype, ScalarType.isFloat] at hfloat
  | bool =>
      simp only [decode, htype, Except.ok.injEq] at h
      subst h
      by_cases hzero : f.order.read raw = 0 <;>
        simp [write, htype, bytesOf?, canonical, Value.integer?, hzero]
  | string =>
      simp only [decode, htype] at h
      split at h
      · rename_i s hs
        cases h
        simp [write, htype, Value.string?, canonical, Text.Encoding.encode_of_decode hs]
      · cases h
  | bytes =>
      simp only [decode, htype, Except.ok.injEq] at h
      subst h
      simp [write, htype, bytesOf?, Value.bytes?, canonical]
  | char =>
      have hlength : raw.length = 1 := hf.length_eq hraw (by simp [htype, ScalarType.fixedWidth])
      obtain ⟨b, rfl⟩ := List.length_eq_one_iff.mp hlength
      simp only [decode, htype, Except.ok.injEq, ByteOrder.read_singleton] at h
      subst h
      simp only [write, htype, bytesOf?, canonical, Value.integer?, Option.bind_eq_bind,
        Option.bind_some, charByte?_toNat]
      rfl
  | void =>
      simp [write, htype, bytesOf?, canonical]

theorem decode_canonical (h : f.decode raw = .ok v) : f.decode (f.canonical raw) = .ok v := by
  cases htype : f.type with
  | bool =>
      simp only [decode, htype, Except.ok.injEq] at h
      subst h
      by_cases hzero : f.order.read raw = 0 <;>
        simp [decode, htype, canonical, hzero, ByteOrder.read_singleton]
  | void =>
      simp only [decode, htype, Except.ok.injEq] at h
      subst h
      simp [decode, htype]
  | int | float32 | float64 | string | bytes | char => simpa [canonical, htype] using h

theorem length_canonical (hf : f.Sized) (hraw : ∀ n, f.width = .fixed n → raw.length = n)
    (hpadding : ¬f.IsComputedPadding) : (f.canonical raw).length = raw.length := by
  cases htype : f.type with
  | bool =>
      have hlength : raw.length = 1 := hf.length_eq hraw (by simp [htype, ScalarType.fixedWidth])
      simp [canonical, htype, hlength]
  | void =>
      cases hwidth : f.width with
      | fixed n => simp [canonical, htype, fixedWidth, hwidth, hraw n hwidth]
      | dynamic e => exact absurd ⟨htype, e, hwidth⟩ hpadding
      | remaining => exact absurd hwidth (hf.void htype)
  | int | float32 | float64 | string | bytes | char => simp [canonical, htype]

theorem canonical_of_isComputedPadding (h : f.IsComputedPadding) : f.canonical raw = [] := by
  obtain ⟨htype, e, hwidth⟩ := h
  simp [canonical, htype, fixedWidth, hwidth]

theorem encode_of_decode (hf : f.Sized) (hfloat : f.type.isFloat = false)
    (hraw : ∀ n, f.width = .fixed n → raw.length = n) (h : f.decode raw = .ok v) :
    f.encode v = .ok (f.canonical raw) := by
  rw [encode, write_of_decode hf hfloat hraw h]
  cases hwidth : f.width with
  | fixed n =>
      have hpadding : ¬f.IsComputedPadding := by
        rintro ⟨_, e, he⟩
        rw [hwidth] at he
        cases he
      have hlength := length_canonical hf hraw hpadding
      rw [hraw n hwidth] at hlength
      simp [bind, Except.bind, pure, Except.pure, hlength]
  | dynamic e => rfl
  | remaining => rfl

end FieldPlan

end WireSpec
