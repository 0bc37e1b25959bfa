import WireSpec.Proofs.Codec.FieldValues
/-!
# Which bytes are a text

An encoding reads exactly the bytes that it writes.  Which bytes these are is said here without
reading or writing any: in UTF-8 by the ranges of the bytes of a character, which leave each
character one form, in UTF-16 by how surrogates stand beside each other, and in the others by the
greatest byte.
-/

namespace WireSpec

namespace Text

/-! ### UTF-8 -/

/-- A byte of a character behind its first one. -/
def IsTrailing (b : UInt8) : Prop := 0x80 ≤ b.toNat ∧ b.toNat < 0xC0

/-- The bytes of one character.  The second byte is bounded further where the character would have a
shorter form, would be a surrogate, or would come behind the last code point. -/
def IsUtf8Character : Bytes → Prop
  | [a] => a.toNat < 0x80
  | [a, b] => 0xC2 ≤ a.toNat ∧ a.toNat < 0xE0 ∧ IsTrailing b
  | [a, b, c] =>
      0xE0 ≤ a.toNat ∧ a.toNat < 0xF0 ∧ IsTrailing b ∧ IsTrailing c ∧
        (a.toNat = 0xE0 → 0xA0 ≤ b.toNat) ∧ (a.toNat = 0xED → b.toNat < 0xA0)
  | [a, b, c, d] =>
      0xF0 ≤ a.toNat ∧ a.toNat < 0xF5 ∧ IsTrailing b ∧ IsTrailing c ∧ IsTrailing d ∧
        (a.toNat = 0xF0 → 0x90 ≤ b.toNat) ∧ (a.toNat = 0xF4 → b.toNat < 0x90)
  | _ => False

theorem isUtf8Character_utf8EncodeChar (c : Char) : IsUtf8Character (String.utf8EncodeChar c) := by
  have hvalid := toNat_valid c
  have hval : c.val.toNat = c.toNat := rfl
  unfold String.utf8EncodeChar
  simp only [hval]
  split
  · simp only [IsUtf8Character, UInt8.toNat_ofNat']
    omega
  split
  · simp only [IsUtf8Character, IsTrailing, UInt8.toNat_ofNat']
    omega
  split
  · simp only [IsUtf8Character, IsTrailing, UInt8.toNat_ofNat']
    omega
  · simp only [IsUtf8Character, IsTrailing, UInt8.toNat_ofNat']
    omega

theorem ofNat_eq_of_toNat_eq {b : UInt8} {n : Nat} (h : b.toNat = n) : UInt8.ofNat n = b := by
  rw [← h, UInt8.ofNat_toNat]

theorem isValidChar_iff {n : Nat} :
    n.isValidChar ↔ n < 0xD800 ∨ 0xDFFF < n ∧ n < 0x110000 := Iff.rfl

theorem exists_char_of_isUtf8Character {raw : Bytes} (h : IsUtf8Character raw) :
    ∃ c, String.utf8EncodeChar c = raw := by
  -- The code point is put together from the bits that the bytes carry.
  have hexists {n : Nat} (hn : n.isValidChar)
      (hraw : ∀ c : Char, c.val.toNat = n → String.utf8EncodeChar c = raw) :
      ∃ c, String.utf8EncodeChar c = raw :=
    ⟨Char.ofNat n, hraw _ (toNat_charOfNat hn)⟩
  match raw, h with
  | [a], h =>
      simp only [IsUtf8Character] at h
      apply hexists (n := a.toNat) (isValidChar_iff.mpr (by omega))
      intro c hc
      unfold String.utf8EncodeChar
      simp only [hc]
      rw [if_pos (by omega), UInt8.ofNat_toNat]
  | [a, b], h =>
      simp only [IsUtf8Character, IsTrailing] at h
      apply hexists (n := (a.toNat - 0xC0) * 0x40 + (b.toNat - 0x80))
        (isValidChar_iff.mpr (by omega))
      intro c hc
      unfold String.utf8EncodeChar
      simp only [hc]
      rw [if_neg (by omega), if_pos (by omega), ofNat_eq_of_toNat_eq (b := a) (by omega),
        ofNat_eq_of_toNat_eq (b := b) (by omega)]
  | [a, b, c], h =>
      simp only [IsUtf8Character, IsTrailing] at h
      apply hexists
        (n := (a.toNat - 0xE0) * 0x1000 + (b.toNat - 0x80) * 0x40 + (c.toNat - 0x80))
        (isValidChar_iff.mpr (by omega))
      intro ch hch
      unfold String.utf8EncodeChar
      simp only [hch]
      rw [if_neg (by omega), if_neg (by omega), if_pos (by omega),
        ofNat_eq_of_toNat_eq (b := a) (by omega), ofNat_eq_of_toNat_eq (b := b) (by omega),
        ofNat_eq_of_toNat_eq (b := c) (by omega)]
  | [a, b, c, d], h =>
      simp only [IsUtf8Character, IsTrailing] at h
      apply hexists
        (n := (a.toNat - 0xF0) * 0x40000 + (b.toNat - 0x80) * 0x1000 + (c.toNat - 0x80) * 0x40 +
          (d.toNat - 0x80))
        (isValidChar_iff.mpr (by omega))
      intro ch hch
      unfold String.utf8EncodeChar
      simp only [hch]
      rw [if_neg (by omega), if_neg (by omega), if_neg (by omega),
        ofNat_eq_of_toNat_eq (b := a) (by omega), ofNat_eq_of_toNat_eq (b := b) (by omega),
        ofNat_eq_of_toNat_eq (b := c) (by omega), ofNat_eq_of_toNat_eq (b := d) (by omega)]

theorem utf8Bytes_eq_flatMap (s : String) :
    utf8Bytes s = s.toList.flatMap String.utf8EncodeChar := by
  have hs : s.toByteArray = s.toList.utf8Encode := by
    rw [← String.toByteArray_ofList, String.ofList_toList]
  rw [utf8Bytes, String.toUTF8_eq_toByteArray, hs]
  simp [List.utf8Encode, List.data_toByteArray]

theorem exists_utf8Text?_iff {raw : Bytes} :
    (∃ s, utf8Text? raw = some s) ↔
      ∃ characters : List Bytes,
        (∀ c ∈ characters, IsUtf8Character c) ∧ characters.flatten = raw := by
  constructor
  · rintro ⟨s, hs⟩
    refine ⟨s.toList.map String.utf8EncodeChar, ?_, ?_⟩
    · intro c hc
      obtain ⟨ch, _, rfl⟩ := List.mem_map.mp hc
      exact isUtf8Character_utf8EncodeChar ch
    · rw [← utf8Bytes_of_utf8Text? hs, utf8Bytes_eq_flatMap, List.flatMap_def]
  · rintro ⟨characters, hcharacters, rfl⟩
    have htext : ∃ text : List Char, text.map String.utf8EncodeChar = characters := by
      induction characters with
      | nil => exact ⟨[], rfl⟩
      | cons first rest ih =>
          obtain ⟨hfirst, hrest⟩ := List.forall_mem_cons.mp hcharacters
          obtain ⟨c, rfl⟩ := exists_char_of_isUtf8Character hfirst
          obtain ⟨text, rfl⟩ := ih hrest
          exact ⟨c :: text, rfl⟩
    obtain ⟨text, rfl⟩ := htext
    have hbytes : (text.map String.utf8EncodeChar).flatten = utf8Bytes (String.ofList text) := by
      rw [utf8Bytes_eq_flatMap, String.toList_ofList, List.flatMap_def]
    exact ⟨String.ofList text, hbytes ▸ utf8Text?_utf8Bytes _⟩

/-! ### UTF-16 -/

/-- Of two units beside each other, the first is a high surrogate just when the second is a low one;
and no half of a pair stands at an end. -/
structure Paired (units : List Nat) : Prop where
  first : ∀ u ∈ units.head?, isLowSurrogate u = false
  adjacent : units.IsChain fun u v => isHighSurrogate u = isLowSurrogate v
  last : ∀ u ∈ units.getLast?, isHighSurrogate u = false

theorem isLowSurrogate_of_isHighSurrogate {u : Nat} (h : isHighSurrogate u = true) :
    isLowSurrogate u = false := by
  simp only [isHighSurrogate, isLowSurrogate, decide_eq_true_eq, decide_eq_false_iff_not] at h ⊢
  omega

theorem paired_nil : Paired [] := ⟨by simp, by simp, by simp⟩

theorem paired_singleton {u : Nat} :
    Paired [u] ↔ (isHighSurrogate u || isLowSurrogate u) = false := by
  constructor
  · intro h
    have hlow := h.first u rfl
    have hhigh := h.last u rfl
    simp [hlow, hhigh]
  · intro h
    obtain ⟨hhigh, hlow⟩ := Bool.or_eq_false_iff.mp h
    exact ⟨by simp [hlow], by simp, by simp [hhigh]⟩

theorem paired_cons_cons {u v : Nat} {rest : List Nat} :
    Paired (u :: v :: rest) ↔ isLowSurrogate u = false ∧ isHighSurrogate u = isLowSurrogate v ∧
      (v :: rest).IsChain (fun u v => isHighSurrogate u = isLowSurrogate v) ∧
        ∀ w ∈ (v :: rest).getLast?, isHighSurrogate w = false := by
  constructor
  · intro h
    obtain ⟨huv, hrest⟩ := List.isChain_cons_cons.mp h.adjacent
    refine ⟨h.first u rfl, huv, hrest, ?_⟩
    simpa using h.last
  · rintro ⟨hu, huv, hrest, hlast⟩
    refine ⟨by simpa using hu, List.isChain_cons_cons.mpr ⟨huv, hrest⟩, ?_⟩
    simpa using hlast

/-- A unit that is no half of a pair can be left out in front. -/
theorem paired_cons_of_plain {u v : Nat} {rest : List Nat} (hu : isHighSurrogate u = false)
    (hu' : isLowSurrogate u = false) : Paired (u :: v :: rest) ↔ Paired (v :: rest) := by
  rw [paired_cons_cons, hu]
  constructor
  · rintro ⟨_, hv, hrest, hlast⟩
    exact ⟨by simpa using hv.symm, hrest, hlast⟩
  · intro h
    exact ⟨hu', (h.first v rfl).symm, h.adjacent, h.last⟩

/-- So can a pair. -/
theorem paired_cons_cons_of_high {u v : Nat} {rest : List Nat} (hu : isHighSurrogate u = true) :
    Paired (u :: v :: rest) ↔ isLowSurrogate v = true ∧ Paired rest := by
  have hu' := isLowSurrogate_of_isHighSurrogate hu
  have hhigh (hv : isLowSurrogate v = true) : isHighSurrogate v = false := by
    cases hv' : isHighSurrogate v with
    | false => rfl
    | true => rw [isLowSurrogate_of_isHighSurrogate hv'] at hv; cases hv
  rw [paired_cons_cons, hu]
  cases rest with
  | nil =>
      constructor
      · rintro ⟨_, hv, _, _⟩
        exact ⟨hv.symm, paired_nil⟩
      · rintro ⟨hv, _⟩
        exact ⟨hu', hv.symm, by simp, by simpa using hhigh hv⟩
  | cons w rest =>
      constructor
      · rintro ⟨_, hv, hrest, hlast⟩
        obtain ⟨hvw, hrest⟩ := List.isChain_cons_cons.mp hrest
        rw [hhigh hv.symm] at hvw
        exact ⟨hv.symm, by simpa using hvw.symm, hrest, by simpa using hlast⟩
      · rintro ⟨hv, h⟩
        have hvw : isHighSurrogate v = isLowSurrogate w := by rw [hhigh hv, h.first w rfl]
        exact ⟨hu', hv.symm, List.isChain_cons_cons.mpr ⟨hvw, h.adjacent⟩, by simpa using h.last⟩

theorem isSome_unitsText? (units : List Nat) : (unitsText? units).isSome ↔ Paired units := by
  fun_induction unitsText? units with
  | case1 => simp [paired_nil]
  | case2 u hu => simp [paired_singleton, hu]
  | case3 u hu => simp [paired_singleton, hu]
  | case4 u v rest hu hv ih => simp [paired_cons_cons_of_high hu, hv, ih]
  | case5 u v rest hu hv => simp [paired_cons_cons_of_high hu, hv]
  | case6 u v rest hu hu' => simp [paired_cons_cons, hu']
  | case7 u v rest hu hu' ih =>
      rw [Option.isSome_map, ih, paired_cons_of_plain (by simpa using hu) (by simpa using hu')]

/-! ### All encodings -/

namespace Encoding

/-- The byte sequences that are a text in this encoding. -/
def WellFormed (e : Encoding) (raw : Bytes) : Prop :=
  match e with
  | utf8 => ∃ characters : List Bytes,
      (∀ c ∈ characters, IsUtf8Character c) ∧ characters.flatten = raw
  | ascii => ∀ b ∈ raw, b.toNat < 0x80
  | latin1 => True
  | utf16 order => ∃ units : List Nat,
      (∀ u ∈ units, u < 0x10000) ∧ Paired units ∧ units.flatMap (order.write 2) = raw

/-- The strings that this encoding can represent. -/
def Represents (e : Encoding) (s : String) : Prop :=
  match e with
  | utf8 | utf16 _ => True
  | ascii => ∀ c ∈ s.toList, c.toNat < 0x80
  | latin1 => ∀ c ∈ s.toList, c.toNat < 0x100

theorem decode_eq_some_iff {e : Encoding} {raw : Bytes} {s : String} :
    e.decode raw = some s ↔ e.encode s = some raw :=
  ⟨encode_of_decode, decode_of_encode⟩

theorem isSome_decodeSingle {bound : Nat} {raw : Bytes} :
    (decodeSingle bound raw).isSome ↔ ∀ b ∈ raw, b.toNat < bound := by
  simp [decodeSingle]

theorem byteUnits?_eq_some_iff {order : ByteOrder} {raw : Bytes} {units : List Nat} :
    byteUnits? order raw = some units ↔
      (∀ u ∈ units, u < 0x10000) ∧ units.flatMap (order.write 2) = raw := by
  constructor
  · intro h
    exact (byteUnits?_eq_some h).symm
  · rintro ⟨hbound, rfl⟩
    exact byteUnits?_flatMap_write order hbound

theorem exists_decode_iff (e : Encoding) (raw : Bytes) :
    (∃ s, e.decode raw = some s) ↔ e.WellFormed raw := by
  rw [← Option.isSome_iff_exists]
  cases e with
  | utf8 => exact Option.isSome_iff_exists.trans exists_utf8Text?_iff
  | ascii => rw [decode, Option.isSome_map, isSome_decodeSingle, WellFormed]
  | latin1 =>
      rw [decode, Option.isSome_map, isSome_decodeSingle, WellFormed]
      exact iff_true_intro fun b _ => b.toNat_lt
  | utf16 order =>
      rw [decode, Option.isSome_map, WellFormed]
      constructor
      · intro h
        obtain ⟨text, htext⟩ := Option.isSome_iff_exists.mp h
        obtain ⟨units, hunits, htext⟩ := Option.bind_eq_some_iff.mp htext
        obtain ⟨hbound, hraw⟩ := byteUnits?_eq_some_iff.mp hunits
        exact ⟨units, hbound, (isSome_unitsText? units).mp (by simp [htext]), hraw⟩
      · rintro ⟨units, hbound, hpaired, hraw⟩
        rw [byteUnits?_eq_some_iff.mpr ⟨hbound, hraw⟩, Option.bind_some]
        exact (isSome_unitsText? units).mpr hpaired

theorem exists_encode_iff (e : Encoding) (s : String) :
    (∃ raw, e.encode s = some raw) ↔ e.Represents s := by
  rw [← Option.isSome_iff_exists]
  cases e with
  | utf8 | utf16 => simp [encode, Represents]
  | ascii | latin1 => simp [encode, encodeSingle, Represents]

end Encoding

end Text

namespace FieldPlan

open Text

variable {f : FieldPlan} {raw : Bytes} {s : String}

theorem decode_string_eq_ok (htype : f.type = .string) :
    f.decode raw = .ok (.string s) ↔ f.encoding.decode raw = some s := by
  simp only [decode, htype]
  cases f.encoding.decode raw <;> simp

theorem decode_string_eq_error (htype : f.type = .string) :
    f.decode raw = .error (.invalidEncoding f.name f.encoding) ↔
      ¬∃ s, f.encoding.decode raw = some s := by
  simp only [decode, htype]
  cases f.encoding.decode raw <;> simp

theorem write_string_eq_ok (htype : f.type = .string) :
    f.write (.string s) = .ok raw ↔ f.encoding.encode s = some raw := by
  simp only [write, htype, Value.string?]
  cases f.encoding.encode s <;> simp

theorem write_string_eq_error (htype : f.type = .string) :
    f.write (.string s) = .error (.invalidEncoding f.name f.encoding) ↔
      ¬∃ raw, f.encoding.encode s = some raw := by
  simp only [write, htype, Value.string?]
  cases f.encoding.encode s <;> simp

/-- In a field of text, reading bytes as a string and writing the string as these bytes are the
same.  All bytes that are well formed in the field's encoding are read and all strings that it
represents are written; of any others, the error says that the encoding is invalid. -/
theorem decode_string_iff_write (htype : f.type = .string) (raw : Bytes) (s : String) :
    (f.decode raw = .ok (.string s) ↔ f.write (.string s) = .ok raw) ∧
      ((∃ s, f.decode raw = .ok (.string s)) ↔ f.encoding.WellFormed raw) ∧
      (f.decode raw = .error (.invalidEncoding f.name f.encoding) ↔
        ¬f.encoding.WellFormed raw) ∧
      ((∃ raw, f.write (.string s) = .ok raw) ↔ f.encoding.Represents s) ∧
      (f.write (.string s) = .error (.invalidEncoding f.name f.encoding) ↔
        ¬f.encoding.Represents s) := by
  refine ⟨?_, ?_, ?_, ?_, ?_⟩
  · rw [decode_string_eq_ok htype, write_string_eq_ok htype]
    exact Encoding.decode_eq_some_iff
  · simp only [decode_string_eq_ok htype, Encoding.exists_decode_iff]
  · rw [decode_string_eq_error htype, Encoding.exists_decode_iff]
  · simp only [write_string_eq_ok htype, Encoding.exists_encode_iff]
  · rw [write_string_eq_error htype, Encoding.exists_encode_iff]

/-- A field of text in UTF-16, the less significant byte of a unit first. -/
def wideText : FieldPlan :=
  { FieldPlan.plain "title" .string with encoding := .utf16 .little }

/-- A letter and a pair of surrogates are a text, a high surrogate before a letter is none. -/
theorem decode_string_iff_write_surrogates :
    wideText.type = .string ∧
      wideText.decode [0x61, 0x00, 0x3D, 0xD8, 0x00, 0xDE] = .ok (.string "a😀") ∧
      wideText.write (.string "a😀") = .ok [0x61, 0x00, 0x3D, 0xD8, 0x00, 0xDE] ∧
      wideText.encoding.WellFormed [0x61, 0x00, 0x3D, 0xD8, 0x00, 0xDE] ∧
      ¬wideText.encoding.WellFormed [0x3D, 0xD8, 0x61, 0x00] := by
  have htype : wideText.type = .string := rfl
  have hpair := decode_string_iff_write htype [0x61, 0x00, 0x3D, 0xD8, 0x00, 0xDE] "a😀"
  have hlone := decode_string_iff_write htype [0x3D, 0xD8, 0x61, 0x00] "a😀"
  have hwrite : wideText.write (.string "a😀") = .ok [0x61, 0x00, 0x3D, 0xD8, 0x00, 0xDE] := by
    rfl
  have hread := hpair.1.mpr hwrite
  exact ⟨htype, hread, hwrite, hpair.2.1.mp ⟨_, hread⟩, hlone.2.2.1.mp rfl⟩

end FieldPlan

end WireSpec
