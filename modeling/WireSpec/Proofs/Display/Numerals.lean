import Mathlib
import WireSpec.Proofs.Codec.FieldValues
import WireSpec.Proofs.Token.Spelling
/-!
# Integers as numerals

A field can show its integers as bit patterns in another base.  The numeral denotes the bit pattern
in two's complement at the size of the type; a hexadecimal or binary one has all digits of that
size, an octal one no zeros in front.  So values of a type that look alike are equal, and a byte
sequence can be read back from the numerals of its bytes.
-/

namespace WireSpec

/-! ### Digits -/

namespace Text

variable {base n : Nat} {digits : List Char}

theorem isNumeral_singleton {c : Char} {value : Nat} (h : IsDigit base c value) :
    IsNumeral base [c] value :=
  ⟨List.cons_ne_nil _ _, [value], .cons h .nil, Nat.ofDigits_singleton⟩

theorem IsNumeral.concat {c : Char} {value : Nat} (h : IsNumeral base digits n)
    (hc : IsDigit base c value) : IsNumeral base (digits ++ [c]) (value + base * n) := by
  obtain ⟨hne, values, hvalues, rfl⟩ := h
  refine ⟨List.append_ne_nil_of_left_ne_nil hne _, values ++ [value],
    List.rel_append hvalues (.cons hc .nil), ?_⟩
  rw [List.reverse_append, List.reverse_singleton, List.singleton_append, Nat.ofDigits_cons]

theorem isNumeral_toDigits (hbase : 1 < base) (n : Nat) :
    IsNumeral base (Nat.toDigits base n) n := by
  induction n using Nat.strongRecOn with
  | ind n ih =>
      rw [Nat.toDigits_eq_if hbase]
      split
      · rename_i hlt
        exact isNumeral_singleton ⟨hlt, .inl rfl⟩
      · rename_i hle
        -- The last digit is the remainder, and those in front of it are the digits of the quotient.
        have hquotient : n / base < n := Nat.div_lt_self (by omega) hbase
        have hdigit : IsDigit base (n % base).digitChar (n % base) :=
          ⟨Nat.mod_lt n (by omega), .inl rfl⟩
        have hnumeral := (ih (n / base) hquotient).concat hdigit
        rwa [Nat.mod_add_div] at hnumeral

theorem IsNumeral.map_toUpper (h : IsNumeral base digits n) :
    IsNumeral base (digits.map Char.toUpper) n := by
  obtain ⟨hne, values, hvalues, hn⟩ := h
  refine ⟨by simpa using hne, values, List.forall₂_map_left_iff.mpr (hvalues.imp ?_), hn⟩
  rintro c value ⟨hlt, rfl | rfl⟩
  · exact ⟨hlt, .inr rfl⟩
  · exact ⟨hlt, .inr (Char.toUpper_toUpper_eq_toUpper _)⟩

theorem IsNumeral.cons_zero (h : IsNumeral base digits n) (hbase : 0 < base) :
    IsNumeral base ('0' :: digits) n := by
  obtain ⟨-, values, hvalues, rfl⟩ := h
  refine ⟨List.cons_ne_nil _ _, 0 :: values, .cons ⟨hbase, .inl rfl⟩ hvalues, ?_⟩
  rw [List.reverse_cons, Nat.ofDigits_append_zero]

theorem IsNumeral.padLeft (h : IsNumeral base digits n) (hbase : 0 < base) (width : Nat) :
    IsNumeral base (ValueFormat.padLeft width digits) n := by
  unfold ValueFormat.padLeft
  induction width - digits.length with
  | zero => exact h
  | succ count ih => exact ih.cons_zero hbase

theorem length_padLeft {width : Nat} (h : digits.length ≤ width) :
    (ValueFormat.padLeft width digits).length = width := by
  rw [ValueFormat.padLeft, List.length_append, List.length_replicate, Nat.sub_add_cancel h]

theorem IsNumeral.unique {m : Nat} (hm : IsNumeral base digits m) (hn : IsNumeral base digits n)
    (hbase : base ≤ 16) : m = n :=
  (hm.foldl_eq hbase).symm.trans (hn.foldl_eq hbase)

/-- Only zero is written with a zero in front. -/
theorem eq_zero_of_head?_toDigits (hbase : 1 < base) (h : (Nat.toDigits base n).head? = some '0') :
    n = 0 := by
  induction n using Nat.strongRecOn with
  | ind n ih =>
      rw [Nat.toDigits_eq_if hbase] at h
      split at h
      · exact Nat.digitChar_eq_zero.mp (Option.some.inj h)
      · rename_i hle
        have hquotient : n / base < n := Nat.div_lt_self (by omega) hbase
        -- The first digit is that of the quotient, which is not zero.
        rw [List.head?_append_of_ne_nil _ Nat.toDigits_ne_nil] at h
        have hzero := ih (n / base) hquotient h
        rw [Nat.div_eq_zero_iff] at hzero
        omega

end Text

namespace ValueFormat

/-! ### Numerals of bit patterns -/

def base : ValueFormat → Nat
  | hexadecimal => 16
  | binary => 2
  | octal => 8
  | default | decimal => 10

/-- What stands in front of the digits. -/
def mark : ValueFormat → String
  | hexadecimal => "0x"
  | binary => "0b"
  | octal => "0o"
  | default | decimal => ""

/-- The digits of a numeral. -/
def figures (format : ValueFormat) (bits width : Nat) : List Char :=
  match format with
  | hexadecimal => padLeft (2 * width) ((Nat.toDigits 16 bits).map Char.toUpper)
  | binary => padLeft (8 * width) (Nat.toDigits 2 bits)
  | octal => Nat.toDigits 8 bits
  | default | decimal => Nat.toDigits 10 bits

variable {bits width : Nat}

theorem base_le (format : ValueFormat) : format.base ≤ 16 := by
  cases format <;> decide

theorem numeral_eq (format : ValueFormat) (bits width : Nat) :
    format.numeral bits width = format.mark ++ String.ofList (format.figures bits width) := by
  cases format with
  | hexadecimal | binary | octal => rfl
  | default | decimal =>
      rw [mark, String.empty_append, figures, ← Nat.toString_eq_ofList_toDigits]
      rfl

theorem isNumeral_figures (format : ValueFormat) (bits width : Nat) :
    Text.IsNumeral format.base (format.figures bits width) bits := by
  cases format with
  | hexadecimal =>
      have hdigits : Text.IsNumeral 16 (Nat.toDigits 16 bits) bits :=
        Text.isNumeral_toDigits (by decide) bits
      exact hdigits.map_toUpper.padLeft (by decide) _
  | binary => exact (Text.isNumeral_toDigits (by decide) bits).padLeft (by decide) _
  | octal | default | decimal => exact Text.isNumeral_toDigits (by decide) bits

theorem numeral_injective {format : ValueFormat} {bits' : Nat}
    (h : format.numeral bits width = format.numeral bits' width) : bits = bits' := by
  rw [numeral_eq, numeral_eq, String.append_right_inj, String.ofList_inj] at h
  have hnumeral := format.isNumeral_figures bits width
  rw [h] at hnumeral
  exact hnumeral.unique (format.isNumeral_figures bits' width) format.base_le

theorem length_figures_hexadecimal (h : bits < 2 ^ (8 * width)) (hwidth : 0 < width) :
    (hexadecimal.figures bits width).length = 2 * width := by
  have hpow : (2 : Nat) ^ (8 * width) = 16 ^ (2 * width) := by
    rw [show 8 * width = 4 * (2 * width) by omega, Nat.pow_mul]
  rw [hpow] at h
  have hlength : (Nat.toDigits 16 bits).length ≤ 2 * width :=
    (Nat.length_toDigits_le_iff (by decide) (by omega)).mpr h
  exact Text.length_padLeft (by rwa [List.length_map])

theorem length_figures_binary (h : bits < 2 ^ (8 * width)) (hwidth : 0 < width) :
    (binary.figures bits width).length = 8 * width :=
  Text.length_padLeft ((Nat.length_toDigits_le_iff (by decide) (by omega)).mpr h)

theorem isLower_of_mem_figures_hexadecimal {c : Char} (hc : c ∈ hexadecimal.figures bits width) :
    c.isLower = false := by
  rcases List.mem_append.mp hc with hzero | hdigit
  · rw [List.eq_of_mem_replicate hzero]
    rfl
  · obtain ⟨d, -, rfl⟩ := List.mem_map.mp hdigit
    exact Char.isLower_toUpper_eq_false d

theorem figures_octal_of_head? (h : (octal.figures bits width).head? = some '0') :
    octal.figures bits width = ['0'] := by
  rw [figures, Text.eq_zero_of_head?_toDigits (by decide) h]
  rfl

/-- The formats that show bit patterns. -/
def patterns : List ValueFormat := [hexadecimal, binary, octal]

theorem length_mark {format : ValueFormat} (h : format ∈ patterns) :
    format.mark.toList.length = 2 := by
  have hpatterns : ∀ format ∈ patterns, format.mark.toList.length = 2 := by decide
  exact hpatterns format h

theorem blank_notMem_numeral (format : ValueFormat) (bits width : Nat) :
    ' ' ∉ (format.numeral bits width).toList := by
  rw [numeral_eq, String.toList_append, String.toList_ofList, List.mem_append]
  rintro (hmark | hfigure)
  · revert hmark
    cases format <;> decide
  · have halphanum := (format.isNumeral_figures bits width).forall_mem
      (fun c v hdigit => (hdigit.digitValue_eq format.base_le).2) ' ' hfigure
    revert halphanum
    decide

theorem toList_numeral_ne_nil (format : ValueFormat) (bits width : Nat) :
    (format.numeral bits width).toList ≠ [] := by
  rw [numeral_eq, String.toList_append, String.toList_ofList]
  exact List.append_ne_nil_of_right_ne_nil _ (format.isNumeral_figures bits width).1

end ValueFormat

theorem ScalarType.fixedWidth_pos {type : ScalarType} {size : Nat}
    (h : type.fixedWidth = some size) : 0 < size := by
  cases type with
  | int k =>
      cases h
      cases k <;> decide
  | float32 | float64 | bool | char =>
      cases h
      decide
  | string | bytes | void => cases h

theorem IntKind.holds_toNat (x : UInt8) : IntKind.u8.Holds x.toNat :=
  ⟨Int.natCast_nonneg _, Int.ofNat_lt.mpr x.toNat_lt⟩

namespace Value

/-! ### Values that look alike -/

variable {v w : Value} {format : ValueFormat} {width : Option Nat} {bits : Nat}

theorem formatted_of_bits? (hformat : format ∈ ValueFormat.patterns) (h : v.bits? = some bits) :
    v.formatted format width = format.numeral bits (width.getD 0) := by
  simp only [ValueFormat.patterns, List.mem_cons, List.not_mem_nil, or_false] at hformat
  rcases hformat with rfl | rfl | rfl <;> cases v <;> cases h <;> rfl

theorem formatted_bytes (hformat : format ∈ ValueFormat.patterns) (b : Bytes) :
    (bytes b).formatted format width =
      " ".intercalate (b.map fun x => format.numeral x.toNat 1) := by
  simp only [ValueFormat.patterns, List.mem_cons, List.not_mem_nil, or_false] at hformat
  rcases hformat with rfl | rfl | rfl <;> rfl

/-- Values of a type are told apart by their bit patterns. -/
theorem eq_of_bits? (htype : v.type = w.type) (hv : v.bits? = some bits)
    (hw : w.bits? = some bits) : v = w := by
  cases v with
  | int k x =>
      cases w with
      | int l y =>
          cases ScalarType.int.inj htype
          have hbits : IntKind.toBits x = IntKind.toBits y :=
            Option.some.inj (hv.trans hw.symm)
          rw [← IntKind.ofBits_toBits x, hbits, IntKind.ofBits_toBits]
      | _ => cases htype
  | char c =>
      cases w with
      | char d => rw [Char.toNat_inj.mp (Option.some.inj (hv.trans hw.symm))]
      | _ => cases htype
  | bool b =>
      cases w with
      | bool c =>
          have hbits := Option.some.inj (hv.trans hw.symm)
          revert hbits
          cases b <;> cases c <;> decide
      | _ => cases htype
  | _ => cases hv

/-- The bit pattern of an integral value is its integer modulo that of its size. -/
theorem bits?_eq {x : Int} {size raw : Nat} (hx : v.integer? = some x)
    (hsize : v.type.fixedWidth = some size) (hchar : ∀ c, v = .char c → c.toNat ≤ 0xFF)
    (hraw : (raw : Int) = x % 2 ^ (8 * size)) : v.bits? = some raw := by
  cases v with
  | int k y =>
      cases hx
      cases hsize
      have hmodulus : (k.modulus : Int) = 2 ^ (8 * k.size) := by
        rw [k.modulus_eq_pow, Nat.cast_pow, pow_mul]
        norm_num
      rw [bits?, IntKind.toBits, hmodulus, ← hraw, Int.toNat_natCast]
  | char c =>
      cases hx
      cases hsize
      have hc := hchar c rfl
      rw [bits?, Option.some_inj]
      omega
  | bool b =>
      cases hx
      cases hsize
      cases b <;> simpa [bits?, eq_comm] using hraw
  | _ => cases hx

theorem bits?_u8 (x : UInt8) :
    (int .u8 ⟨x.toNat, IntKind.holds_toNat x⟩).bits? = some x.toNat := by
  refine bits?_eq rfl rfl (fun c hc => ?_) ?_
  · cases hc
  · exact (Int.emod_eq_of_lt (Int.natCast_nonneg _) (IntKind.holds_toNat x).2).symm

theorem exists_bits? (h : v.integer?.isSome) : ∃ bits, v.bits? = some bits := by
  cases v with
  | int _ x => exact ⟨_, rfl⟩
  | char c => exact ⟨_, rfl⟩
  | bool b => exact ⟨_, rfl⟩
  | _ => cases h

theorem isSome_integer?_eq (h : v.type = w.type) :
    v.integer?.isSome = w.integer?.isSome := by
  cases v <;> cases w <;> first | rfl | cases h

theorem eq_of_formatted_eq (htype : v.type = w.type) (hv : v.integer?.isSome)
    (hformat : format ∈ ValueFormat.patterns)
    (h : v.formatted format width = w.formatted format width) : v = w := by
  have hw : w.integer?.isSome := isSome_integer?_eq htype ▸ hv
  obtain ⟨bits, hbits⟩ := exists_bits? hv
  obtain ⟨bits', hbits'⟩ := exists_bits? hw
  rw [formatted_of_bits? hformat hbits, formatted_of_bits? hformat hbits'] at h
  rw [← ValueFormat.numeral_injective h] at hbits'
  exact eq_of_bits? htype hbits hbits'

end Value

/-! ### Bytes -/

namespace Text

/-- The bytes whose numerals stand between blanks, each behind two characters. -/
def readBytes? (base : Nat) (text : List Char) : Option Bytes :=
  ((text.splitOn ' ').filter (· ≠ [])).mapM fun piece =>
    (numeral? base (piece.drop 2)).map UInt8.ofNat

theorem numeral?_drop_mark {format : ValueFormat} (h : format ∈ ValueFormat.patterns)
    (bits width : Nat) :
    numeral? format.base ((format.numeral bits width).toList.drop 2) = some bits := by
  rw [ValueFormat.numeral_eq, String.toList_append, String.toList_ofList,
    List.drop_left' (ValueFormat.length_mark h)]
  exact (format.isNumeral_figures bits width).numeral?_eq format.base_le

theorem splitOn_numerals (format : ValueFormat) (b : Bytes) :
    ((" ".intercalate (b.map fun x => format.numeral x.toNat 1)).toList.splitOn ' ').filter
      (· ≠ []) = b.map fun x => (format.numeral x.toNat 1).toList := by
  cases b with
  | nil =>
      -- An empty text is split into one empty piece, which is left out.
      rfl
  | cons x b =>
      have hblank : ∀ piece ∈ ((x :: b).map fun x => format.numeral x.toNat 1).map String.toList,
          ' ' ∉ piece := by
        intro piece hpiece
        rw [List.map_map] at hpiece
        obtain ⟨y, -, rfl⟩ := List.mem_map.mp hpiece
        exact format.blank_notMem_numeral y.toNat 1
      rw [String.toList_intercalate, show " ".toList = [' '] from rfl,
        List.splitOn_intercalate ' ' hblank (by simp), List.map_map]
      apply List.filter_eq_self.mpr
      intro piece hpiece
      obtain ⟨y, -, rfl⟩ := List.mem_map.mp hpiece
      exact decide_eq_true (format.toList_numeral_ne_nil y.toNat 1)

theorem readBytes?_formatted {format : ValueFormat} (h : format ∈ ValueFormat.patterns)
    (b : Bytes) (width : Option Nat) :
    readBytes? format.base ((Value.bytes b).formatted format width).toList = some b := by
  rw [Value.formatted_bytes h, readBytes?, splitOn_numerals]
  induction b with
  | nil => rfl
  | cons x b ih =>
      rw [List.map_cons, List.mapM_cons, numeral?_drop_mark h, ih]
      simp

end Text

namespace Value

/-- The numerals of integral values, and of bytes.  A value is shown at the size of its type, `raw`
being its bit pattern there: in hexadecimal by two capital digits for each byte, in binary by eight
digits, and in octal by as many as it needs.  Each of these tells the values of a type apart.  Bytes
are shown one by one like integers of one byte, with a blank between them, and can be read back. -/
theorem formatted_faithful :
    (∀ (v : Value) (x : Int) (size raw : Nat), v.integer? = some x →
      v.type.fixedWidth = some size → (∀ c, v = char c → c.toNat ≤ 0xFF) →
      (raw : Int) = x % 2 ^ (8 * size) →
        (∃ digits, v.formatted .hexadecimal (some size) = "0x" ++ String.ofList digits ∧
          digits.length = 2 * size ∧ (∀ c ∈ digits, c.isLower = false) ∧
          Text.IsNumeral 16 digits raw) ∧
        (∃ digits, v.formatted .binary (some size) = "0b" ++ String.ofList digits ∧
          digits.length = 8 * size ∧ Text.IsNumeral 2 digits raw) ∧
        ∃ digits, v.formatted .octal (some size) = "0o" ++ String.ofList digits ∧
          (digits.head? = some '0' → digits = ['0']) ∧ Text.IsNumeral 8 digits raw) ∧
    (∀ (v w : Value) (format : ValueFormat) (width : Option Nat), v.type = w.type →
      v.integer?.isSome → format ∈ ValueFormat.patterns →
        v.formatted format width = w.formatted format width → v = w) ∧
    ∀ (b : Bytes) (format : ValueFormat) (width : Option Nat), format ∈ ValueFormat.patterns →
      (bytes b).formatted format width = " ".intercalate
        (b.map fun x => (int .u8 ⟨x.toNat, IntKind.holds_toNat x⟩).formatted format (some 1)) ∧
      Text.readBytes? format.base ((bytes b).formatted format width).toList = some b := by
  refine ⟨fun v x size raw hx hsize hchar hraw => ?_,
    fun v w format width htype hv hformat h => eq_of_formatted_eq htype hv hformat h,
    fun b format width hformat => ⟨?_, Text.readBytes?_formatted hformat b width⟩⟩
  · have hbits := bits?_eq hx hsize hchar hraw
    have hpos := ScalarType.fixedWidth_pos hsize
    have hlt : raw < 2 ^ (8 * size) := by
      have hmod : x % 2 ^ (8 * size) < 2 ^ (8 * size) := Int.emod_lt_of_pos x (by positivity)
      exact_mod_cast hraw.trans_lt hmod
    have hshown {format : ValueFormat} (hformat : format ∈ ValueFormat.patterns) :
        v.formatted format (some size) =
          format.mark ++ String.ofList (format.figures raw size) :=
      (formatted_of_bits? hformat hbits).trans (format.numeral_eq raw size)
    refine ⟨⟨_, hshown (by decide), ?_, ?_, ?_⟩, ⟨_, hshown (by decide), ?_, ?_⟩,
      ⟨_, hshown (by decide), ?_, ?_⟩⟩
    · exact ValueFormat.length_figures_hexadecimal hlt hpos
    · exact fun c => ValueFormat.isLower_of_mem_figures_hexadecimal
    · exact ValueFormat.hexadecimal.isNumeral_figures raw size
    · exact ValueFormat.length_figures_binary hlt hpos
    · exact ValueFormat.binary.isNumeral_figures raw size
    · exact ValueFormat.figures_octal_of_head?
    · exact ValueFormat.octal.isNumeral_figures raw size
  · rw [formatted_bytes hformat]
    congr 1
    apply List.map_congr_left
    intro x _
    rw [formatted_of_bits? hformat (bits?_u8 x), Option.getD_some]

/-- In two bytes -2 is shown as 65534, `A` and `B` look different, and bytes come back from their
binary numerals. -/
theorem formatted_faithful_negative :
    (∃ digits, (int .i16 ⟨-2, by decide⟩).formatted .hexadecimal (some 2) =
      "0x" ++ String.ofList digits ∧ digits.length = 4 ∧ Text.IsNumeral 16 digits 65534) ∧
    (char 'A').formatted .octal (some 1) ≠ (char 'B').formatted .octal (some 1) ∧
    Text.readBytes? 2 ((bytes [1, 171, 0]).formatted .binary none).toList = some [1, 171, 0] := by
  obtain ⟨hnumerals, hdistinct, hbytes⟩ := formatted_faithful
  refine ⟨?_, ?_, ?_⟩
  · obtain ⟨⟨digits, hshown, hlength, -, hnumeral⟩, -, -⟩ :=
      hnumerals (int .i16 ⟨-2, by decide⟩) (-2) 2 65534 rfl rfl (fun c hc => by cases hc)
        (by decide)
    exact ⟨digits, hshown, hlength, hnumeral⟩
  · intro h
    have hsame : char 'A' = char 'B' := hdistinct _ _ .octal (some 1) rfl rfl (by decide) h
    revert hsame
    decide
  · exact (hbytes [1, 171, 0] .binary none (by decide)).2

end Value

end WireSpec
