import WireSpec.Proofs.Codec.FieldValues
/-!
# Integers in fields

Numbers of any kind, characters and truth values read as integers, and each of them can be given to
any field of integers or characters.  What is written is decided by the integer alone: it is refused
where the type of the field does not span it, and read back as it was where the type does.  A field
of characters is the exception.  It sees only the low 32 bits of an integer, so that it takes some
that are far too large for it and holds others in their place.
-/

namespace WireSpec

namespace ScalarType

/-- The types whose values are integers; a character is its code point. -/
def IsIntegral : ScalarType → Prop
  | int _ | char => True
  | float32 | float64 | bool | string | bytes | void => False

theorem IsIntegral.int_or_char {t : ScalarType} (h : t.IsIntegral) :
    (∃ kind, t = .int kind) ∨ t = .char := by
  cases t with
  | int kind => exact .inl ⟨kind, rfl⟩
  | char => exact .inr rfl
  | float32 | float64 | bool | string | bytes | void => exact h.elim

/-- The integers of a type.  A character has a single byte. -/
def Spans : ScalarType → Int → Prop
  | int kind, x => kind.Holds x
  | char, x => 0 ≤ x ∧ x < 256
  | float32, _ | float64, _ | bool, _ | string, _ | bytes, _ | void, _ => False

/-- What a field of the type sees of an integer. -/
def seen : ScalarType → Int → Int
  | char, x => if 0 ≤ x then x % UInt32.size else x
  | _, x => x

theorem seen_of_ne_char {t : ScalarType} (h : t ≠ .char) (x : Int) : t.seen x = x := by
  cases t <;> first | rfl | exact absurd rfl h

theorem seen_of_lt (t : ScalarType) {x : Int} (h : x < UInt32.size) : t.seen x = x := by
  unfold seen
  split
  · split
    · rename_i hpos
      exact Int.emod_eq_of_lt hpos h
    · rfl
  · rfl

theorem Spans.seen_eq {t : ScalarType} {x : Int} (h : t.Spans x) : t.seen x = x := by
  by_cases htype : t = .char
  · subst htype
    apply seen_of_lt
    exact Int.lt_trans h.2 (by decide)
  · exact seen_of_ne_char htype x

/-- The type spans the integer that it sees without spanning the one that is there. -/
def Mistakes (t : ScalarType) (x : Int) : Prop :=
  t = .char ∧ UInt32.size ≤ x ∧ x % UInt32.size < 256

theorem seen_eq_or_mistakes {t : ScalarType} {x : Int} (h : t.Spans (t.seen x)) :
    t.seen x = x ∨ t.Mistakes x := by
  by_cases htype : t = .char
  · subst htype
    by_cases hlarge : (UInt32.size : Int) ≤ x
    · have hpos : 0 ≤ x := by omega
      simp only [Spans, seen, if_pos hpos] at h
      exact .inr ⟨rfl, hlarge, h.2⟩
    · exact .inl (seen_of_lt .char (by omega))
  · exact .inl (seen_of_ne_char htype x)

theorem Mistakes.seen_eq {t : ScalarType} {x : Int} (h : t.Mistakes x) :
    t.seen x = x % UInt32.size := by
  obtain ⟨rfl, hlarge, _⟩ := h
  have hpos : 0 ≤ x := by omega
  simp only [seen, if_pos hpos]

theorem Mistakes.spans_seen {t : ScalarType} {x : Int} (h : t.Mistakes x) : t.Spans (t.seen x) := by
  rw [h.seen_eq]
  obtain ⟨rfl, _, hlow⟩ := h
  exact ⟨Int.emod_nonneg x (by decide), hlow⟩

theorem Mistakes.not_spans {t : ScalarType} {x : Int} (h : t.Mistakes x) : ¬t.Spans x := by
  obtain ⟨rfl, hlarge, _⟩ := h
  rintro ⟨_, hsmall⟩
  have hsize : (UInt32.size : Int) = 4294967296 := rfl
  omega

end ScalarType

namespace FieldPlan

/-- The integer is written exactly if the type of the field spans it, is then read back as it was, and
is refused as a value of another type where it is not written. -/
structure Preserves (f : FieldPlan) (v : Value) (x : Int) : Prop where
  written_iff : (∃ raw, f.write v = .ok raw) ↔ f.type.Spans x
  read_back : ∀ raw, f.write v = .ok raw → ∃ w, f.decode raw = .ok w ∧ w.integer? = some x
  refused : ¬f.type.Spans x → f.write v = .error (.typeMismatch f.name f.type)

variable {f : FieldPlan} {v : Value} {x : Int}

theorem write_int {kind : IntKind} (htype : f.type = .int kind) (hx : v.integer? = some x) :
    f.write v =
      if h : kind.Holds x then .ok (f.order.write kind.size (IntKind.toBits ⟨x, h⟩))
      else .error (.typeMismatch f.name f.type) := by
  by_cases h : kind.Holds x <;>
    simp [write, bytesOf?, htype, hx, IntKind.ofInt?, h]

/-- The byte of a character is that of the low 32 bits. -/
theorem charByte?_eq (x : Int) :
    charByte? x =
      if 0 ≤ x ∧ x % UInt32.size < 256 then some (UInt8.ofNat (x % UInt32.size).toNat)
      else none := by
  unfold charByte?
  by_cases hpos : 0 ≤ x
  · have hcode : (x % UInt32.size).toNat = x.toNat % UInt32.size :=
      Int.toNat_emod hpos (by decide)
    have hnonneg : 0 ≤ x % (UInt32.size : Int) := Int.emod_nonneg x (by decide)
    have hlow : x % UInt32.size < 256 ↔ x.toNat % UInt32.size < 256 := by omega
    simp only [hcode, hlow]
  · simp only [hpos, false_and, if_false]

theorem write_char (htype : f.type = .char) (hx : v.integer? = some x) :
    f.write v =
      if 0 ≤ x ∧ x % UInt32.size < 256 then .ok [UInt8.ofNat (x % UInt32.size).toNat]
      else .error (.typeMismatch f.name f.type) := by
  simp only [write, bytesOf?, htype, hx, charByte?_eq, Option.bind_eq_bind, Option.bind_some]
  by_cases h : 0 ≤ x ∧ x % (UInt32.size : Int) < 256
  · simp only [if_pos h]
    rfl
  · simp only [if_neg h]
    rfl

theorem decode_char {n : Int} (htype : f.type = .char) (h : 0 ≤ n ∧ n < 256) :
    ∃ w, f.decode [UInt8.ofNat n.toNat] = .ok w ∧ w.integer? = some n := by
  have hbyte : (UInt8.ofNat n.toNat).toNat = n.toNat := by
    rw [UInt8.toNat_ofNat']
    omega
  have hchar : (Char.ofNat n.toNat).toNat = n.toNat := Text.toNat_charOfNat (.inl (by omega))
  refine ⟨.char (Char.ofNat n.toNat), ?_, ?_⟩
  · simp only [decode, htype]
    rw [ByteOrder.read_singleton, hbyte]
  · rw [Value.integer?, hchar, Int.toNat_of_nonneg h.1]

/-- Where the type spans what the field sees of an integer, that is written and read back. -/
theorem write_of_spans_seen (htype : f.type.IsIntegral) (hx : v.integer? = some x)
    (h : f.type.Spans (f.type.seen x)) :
    ∃ raw w, f.write v = .ok raw ∧ f.decode raw = .ok w ∧ w.integer? = some (f.type.seen x) := by
  obtain ⟨kind, hf⟩ | hf := htype.int_or_char
  · rw [hf] at h ⊢
    have hholds : kind.Holds x := h
    have hwrite := write_int hf hx
    rw [dif_pos hholds] at hwrite
    have hsame : f.write (.int kind ⟨x, hholds⟩) = f.write v := by
      rw [write_int hf rfl, dif_pos hholds, hwrite]
    refine ⟨_, .int kind ⟨x, hholds⟩, hwrite, ?_, rfl⟩
    exact decode_of_write (by rw [hf]; rfl) hf.symm (hsame.trans hwrite)
  · rw [hf] at h ⊢
    by_cases hpos : 0 ≤ x
    · simp only [ScalarType.seen, if_pos hpos] at h ⊢
      have hwrite := write_char hf hx
      rw [if_pos ⟨hpos, h.2⟩] at hwrite
      obtain ⟨w, hdecode, hw⟩ := decode_char hf h
      exact ⟨_, w, hwrite, hdecode, hw⟩
    · simp only [ScalarType.seen, if_neg hpos] at h
      exact absurd h.1 hpos

theorem write_of_not_spans_seen (htype : f.type.IsIntegral) (hx : v.integer? = some x)
    (h : ¬f.type.Spans (f.type.seen x)) : f.write v = .error (.typeMismatch f.name f.type) := by
  obtain ⟨kind, hf⟩ | hf := htype.int_or_char
  · rw [hf] at h
    have hholds : ¬kind.Holds x := h
    rw [write_int hf hx, dif_neg hholds]
  · rw [hf] at h
    have hrefused : ¬(0 ≤ x ∧ x % UInt32.size < 256) := by
      rintro ⟨hpos, hlow⟩
      apply h
      simp only [ScalarType.seen, if_pos hpos]
      exact ⟨Int.emod_nonneg x (by decide), hlow⟩
    rw [write_char hf hx, if_neg hrefused]

theorem preserves_of_not_mistakes (htype : f.type.IsIntegral) (hx : v.integer? = some x)
    (h : ¬f.type.Mistakes x) : f.Preserves v x := by
  by_cases hspans : f.type.Spans (f.type.seen x)
  · obtain ⟨raw, w, hwrite, hdecode, hw⟩ := write_of_spans_seen htype hx hspans
    have hseen : f.type.seen x = x := (ScalarType.seen_eq_or_mistakes hspans).resolve_right h
    rw [hseen] at hspans hw
    refine ⟨⟨fun _ => hspans, fun _ => ⟨raw, hwrite⟩⟩, ?_, fun hnot => absurd hspans hnot⟩
    intro raw' hwrite'
    obtain rfl := Except.ok.inj (hwrite.symm.trans hwrite')
    exact ⟨w, hdecode, hw⟩
  · have hrefused := write_of_not_spans_seen htype hx hspans
    have hnot : ¬f.type.Spans x := by
      intro hspans'
      apply hspans
      rwa [hspans'.seen_eq]
    have hnone : ∀ raw, f.write v ≠ .ok raw := by
      intro raw hwrite
      rw [hrefused] at hwrite
      cases hwrite
    refine ⟨⟨?_, fun hspans' => absurd hspans' hnot⟩, ?_, fun _ => hrefused⟩
    · rintro ⟨raw, hwrite⟩
      exact absurd hwrite (hnone raw)
    · intro raw hwrite
      exact absurd hwrite (hnone raw)

theorem not_preserves_of_mistakes (htype : f.type.IsIntegral) (hx : v.integer? = some x)
    (h : f.type.Mistakes x) : ¬f.Preserves v x := by
  intro hpreserves
  obtain ⟨raw, _, hwrite, _⟩ := write_of_spans_seen htype hx h.spans_seen
  exact h.not_spans (hpreserves.written_iff.mp ⟨raw, hwrite⟩)

/-- Integers and characters have a width of their own, in which the bytes of every value lie. -/
theorem Sized.encode_eq_write (hf : f.Sized) (htype : f.type.IsIntegral)
    (hx : v.integer? = some x) : f.encode v = f.write v := by
  obtain ⟨kind, ht⟩ | ht := htype.int_or_char
  · have hwidth : f.width = .fixed kind.size := hf.fixed kind.size (by rw [ht]; rfl)
    rw [encode, write_int ht hx]
    split
    · simp [hwidth, bind, Except.bind, pure, Except.pure]
    · rfl
  · have hwidth : f.width = .fixed 1 := hf.fixed 1 (by rw [ht]; rfl)
    rw [encode, write_char ht hx]
    split
    · simp only [hwidth]
      rfl
    · rfl

/-- A field of integers or characters preserves every integer, whatever value it is given as, but for
a field of characters and an integer of 2^32 or more whose low 32 bits are below 256.  That is
written as the character of these bits. -/
theorem preserves_iff (htype : f.type.IsIntegral) (hx : v.integer? = some x) :
    (f.Preserves v x ↔ ¬(f.type = .char ∧ 2 ^ 32 ≤ x ∧ x % 2 ^ 32 < 256)) ∧
    (f.type = .char → 2 ^ 32 ≤ x → x % 2 ^ 32 < 256 →
      ∃ raw w, f.write v = .ok raw ∧ f.decode raw = .ok w ∧ w.integer? = some (x % 2 ^ 32)) ∧
    (f.Sized → f.encode v = f.write v) := by
  refine ⟨⟨?_, ?_⟩, ?_, fun hf => hf.encode_eq_write htype hx⟩
  · exact fun hpreserves hmistakes => not_preserves_of_mistakes htype hx hmistakes hpreserves
  · exact preserves_of_not_mistakes htype hx
  · intro hchar hlarge hlow
    have hmistakes : f.type.Mistakes x := ⟨hchar, hlarge, hlow⟩
    have hwritten := write_of_spans_seen htype hx hmistakes.spans_seen
    rwa [hmistakes.seen_eq] at hwritten

end FieldPlan

/-- A signed number, low byte first, and a character. -/
def numberedSource : String :=
  "protocol P \x7b message M \x7b int16 n endian(little); char c; \x7d \x7d"

theorem preserves_iff_negative : ∃ d, ∃ f ∈ d.plan.fields, compile numberedSource {} = .ok d ∧
    f.type = .int .i16 ∧ f.order = .little ∧ f.Preserves (.int .i64 ⟨-2, by decide⟩) (-2) ∧
      f.encode (.int .i64 ⟨-2, by decide⟩) = .ok [254, 255] := by
  have hrun : (compile numberedSource {}).toOption.any (fun d =>
      d.plan.fields.head?.any fun (f : FieldPlan) =>
        decide (f.type = .int .i16 ∧ f.order = .little) &&
          decide ((f.write (.int .i64 ⟨-2, by decide⟩)).toOption = some [254, 255])) = true := by
    decide +kernel
  obtain ⟨d, hcompile, hrun⟩ := exists_eq_ok_of_any hrun
  obtain ⟨f, hhead, hrun⟩ := (Option.any_eq_true _ _).mp hrun
  obtain ⟨hfield, hwrite⟩ := Bool.and_eq_true_iff.mp hrun
  obtain ⟨htype, horder⟩ := of_decide_eq_true hfield
  have hmem : f ∈ d.plan.fields := List.mem_of_mem_head? hhead
  obtain ⟨hpreserves, _, hencode⟩ := FieldPlan.preserves_iff (f := f)
    (v := .int .i64 ⟨-2, by decide⟩) (by rw [htype]; trivial) rfl
  refine ⟨d, f, hmem, hcompile, htype, horder, hpreserves.mpr (by simp [htype]), ?_⟩
  rw [hencode ((wellFormed_of_compile hcompile).sized f hmem)]
  exact eq_ok_of_toOption (of_decide_eq_true hwrite)

/-- The number 2^32 + 65 is written to a field of characters, as the letter A. -/
theorem not_preserves_char : ∃ d, ∃ f ∈ d.plan.fields, compile numberedSource {} = .ok d ∧
    f.type = .char ∧ ¬f.type.Spans 4294967361 ∧
      (Value.int .u64 ⟨4294967361, by decide⟩).integer? = some 4294967361 ∧
        f.encode (.int .u64 ⟨4294967361, by decide⟩) = .ok [65] ∧
          f.decode [65] = .ok (.char 'A') ∧
            ¬f.Preserves (.int .u64 ⟨4294967361, by decide⟩) 4294967361 := by
  have hrun : (compile numberedSource {}).toOption.any (fun d =>
      d.plan.fields.getLast?.any fun (f : FieldPlan) => decide (f.type = .char) &&
        (decide ((f.encode (.int .u64 ⟨4294967361, by decide⟩)).toOption = some [65]) &&
          decide ((f.decode [65]).toOption = some (.char 'A')))) = true := by
    decide +kernel
  obtain ⟨d, hcompile, hrun⟩ := exists_eq_ok_of_any hrun
  obtain ⟨f, hlast, hrun⟩ := (Option.any_eq_true _ _).mp hrun
  obtain ⟨htype, hrun⟩ := Bool.and_eq_true_iff.mp hrun
  obtain ⟨hencode, hdecode⟩ := Bool.and_eq_true_iff.mp hrun
  have hchar : f.type = .char := of_decide_eq_true htype
  have hmistakes : f.type.Mistakes 4294967361 := ⟨hchar, by decide, by decide⟩
  refine ⟨d, f, List.mem_of_mem_getLast? hlast, hcompile, hchar, hmistakes.not_spans, rfl,
    eq_ok_of_toOption (of_decide_eq_true hencode), eq_ok_of_toOption (of_decide_eq_true hdecode), ?_⟩
  exact FieldPlan.not_preserves_of_mistakes (by rw [hchar]; trivial) rfl hmistakes

end WireSpec
