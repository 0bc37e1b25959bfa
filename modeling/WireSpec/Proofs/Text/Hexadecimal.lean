import Mathlib
import WireSpec.CommandLine
import WireSpec.Proofs.Token.Spelling
/-!
# Messages in hexadecimal

Without its blanks, colons and hyphens and one prefix, the text of a message has to be pairs of
digits in either case, and stands for the bytes that the pairs denote.  Only a plus sign is taken as
well in place of the first digit of a pair, and counts nothing.
-/

namespace WireSpec

namespace Text

variable {c : Char} {v : Nat}

/-- The digits of a byte sequence in capitals, two for each byte. -/
def capitals (bytes : Bytes) : List Char := bytes.flatMap fun b => (hexByte b).toList

theorem lt_of_digitValue_lt (h : digitValue c < 16) : c.toNat < 128 := by
  apply lt_of_isWordChar
  by_contra hword
  have hnot : ¬(c.isDigit = true ∨ c.isUpper = true ∨ c.isLower = true) := by
    rintro (hc | hc | hc) <;> simp [Piece.isWordChar, Char.isAlphanum, Char.isAlpha, hc] at hword
  obtain ⟨hdigit, hupper, hlower⟩ := by simpa only [not_or] using hnot
  rw [digitValue, if_neg hdigit, if_neg hupper, if_neg hlower] at h
  omega

/-- Among the characters, only the digits of the base count less than it. -/
theorem isDigit_iff : IsDigit 16 c v ↔ digitValue c = v ∧ v < 16 := by
  constructor
  · intro h
    exact ⟨(h.digitValue_eq (Nat.le_refl 16)).1, h.1⟩
  · rintro ⟨rfl, hlt⟩
    exact forall_lt_128 (P := fun c => digitValue c < 16 → IsDigit 16 c (digitValue c))
      (by decide) (lt_of_digitValue_lt hlt) hlt

theorem not_isDigit (h : 16 ≤ digitValue c) : ¬IsDigit 16 c v := by
  rw [isDigit_iff]
  rintro ⟨rfl, hlt⟩
  exact Nat.not_lt.mpr h hlt

theorem IsDigit.toUpper_eq (h : IsDigit 16 c v) : c.toUpper = upperDigit v := by
  rcases h.2 with rfl | rfl
  · rfl
  · exact Char.toUpper_toUpper_eq_toUpper _

theorem isDigit_of_toUpper_eq (hv : v < 16) (h : c.toUpper = upperDigit v) : IsDigit 16 c v := by
  cases hlower : c.isLower with
  | false =>
      rw [Char.toUpper_eq_of_not_isLower (by simp [hlower])] at h
      exact ⟨hv, .inr h⟩
  | true =>
      have hletter : c.toNat < 128 :=
        lt_of_isWordChar (by simp [Piece.isWordChar, Char.isAlphanum, Char.isAlpha, hlower])
      exact forall_lt_128 (P := fun c => ∀ v < 16, c.toUpper = upperDigit v → IsDigit 16 c v)
        (by decide +kernel) hletter v hv h

end Text

namespace CommandLine

variable {text : String} {c d : Char} {digits : List Char} {bytes : Bytes} {b : UInt8}

/-! ### Pairs -/

/-- The first character of a pair and what it counts. -/
def IsLead (c : Char) (high : Nat) : Prop := Text.IsDigit 16 c high ∨ c = '+' ∧ high = 0

/-- The characters denote the bytes, each by a pair. -/
inductive Pairs : List Char → Bytes → Prop where
  | nil : Pairs [] []
  | cons {c d : Char} {high low : Nat} {rest : List Char} {bytes : Bytes} (hc : IsLead c high)
      (hd : Text.IsDigit 16 d low) (h : Pairs rest bytes) :
      Pairs (c :: d :: rest) (UInt8.ofNat (16 * high + low) :: bytes)

theorem not_isDigit_plus {v : Nat} : ¬Text.IsDigit 16 '+' v :=
  Text.not_isDigit (by decide)

theorem IsLead.of_plus {high : Nat} (h : IsLead '+' high) : high = 0 := by
  rcases h with h | ⟨-, rfl⟩
  · exact absurd h not_isDigit_plus
  · rfl

theorem numeral?_digit {n : Nat} : Text.numeral? 16 [d] = some n ↔ Text.IsDigit 16 d n := by
  rw [Text.isDigit_iff, Text.numeral?]
  by_cases hd : Text.digitValue d < 16
  · rw [if_pos (by simpa using hd), Option.some_inj, List.foldl_cons, List.foldl_nil]
    omega
  · rw [if_neg (by simpa using hd)]
    simp only [reduceCtorEq, false_iff]
    omega

theorem numeral?_digits {n : Nat} : Text.numeral? 16 [c, d] = some n ↔
    ∃ high low, Text.IsDigit 16 c high ∧ Text.IsDigit 16 d low ∧ n = 16 * high + low := by
  simp only [Text.isDigit_iff, Text.numeral?]
  by_cases hcd : Text.digitValue c < 16 ∧ Text.digitValue d < 16
  · rw [if_pos (by simpa using hcd), Option.some_inj, List.foldl_cons, List.foldl_cons,
      List.foldl_nil]
    constructor
    · rintro rfl
      exact ⟨_, _, ⟨rfl, hcd.1⟩, ⟨rfl, hcd.2⟩, by omega⟩
    · rintro ⟨high, low, ⟨rfl, -⟩, ⟨rfl, -⟩, rfl⟩
      omega
  · rw [if_neg (by simpa using hcd)]
    refine iff_of_false nofun ?_
    rintro ⟨high, low, ⟨rfl, hhigh⟩, ⟨rfl, hlow⟩, -⟩
    exact hcd ⟨hhigh, hlow⟩

theorem pairByte?_eq_some : pairByte? c d = some b ↔
    ∃ high low, IsLead c high ∧ Text.IsDigit 16 d low ∧ b = UInt8.ofNat (16 * high + low) := by
  by_cases hplus : c = '+'
  · subst hplus
    rw [pairByte?, Option.map_eq_some_iff]
    constructor
    · rintro ⟨n, hn, rfl⟩
      exact ⟨0, n, .inr ⟨rfl, rfl⟩, numeral?_digit.mp hn, by rw [Nat.mul_zero, Nat.zero_add]⟩
    · rintro ⟨high, low, hhigh, hlow, rfl⟩
      rw [hhigh.of_plus, Nat.mul_zero, Nat.zero_add]
      exact ⟨low, numeral?_digit.mpr hlow, rfl⟩
  · rw [pairByte?.eq_2 _ _ hplus, Option.map_eq_some_iff]
    constructor
    · rintro ⟨n, hn, rfl⟩
      obtain ⟨high, low, hhigh, hlow, rfl⟩ := numeral?_digits.mp hn
      exact ⟨high, low, .inl hhigh, hlow, rfl⟩
    · rintro ⟨high, low, hhigh | ⟨rfl, -⟩, hlow, rfl⟩
      · exact ⟨_, numeral?_digits.mpr ⟨high, low, hhigh, hlow, rfl⟩, rfl⟩
      · exact absurd rfl hplus

theorem pairs_cons : Pairs (c :: d :: digits) bytes ↔
    ∃ b later, pairByte? c d = some b ∧ Pairs digits later ∧ bytes = b :: later := by
  constructor
  · intro h
    cases h with
    | cons hc hd h => exact ⟨_, _, pairByte?_eq_some.mpr ⟨_, _, hc, hd, rfl⟩, h, rfl⟩
  · rintro ⟨b, later, hb, h, rfl⟩
    obtain ⟨high, low, hc, hd, rfl⟩ := pairByte?_eq_some.mp hb
    exact .cons hc hd h

theorem utf8Size_eq_one (hc : c.toNat < 128) : c.utf8Size = 1 :=
  Char.utf8Size_eq_one_iff.mpr (UInt32.le_iff_toNat_le.mpr (Nat.le_of_lt_succ hc))

theorem lt_of_isDigit {v : Nat} (h : Text.IsDigit 16 c v) : c.toNat < 128 := by
  obtain ⟨rfl, hlt⟩ := Text.isDigit_iff.mp h
  exact Text.lt_of_digitValue_lt hlt

theorem IsLead.lt {high : Nat} (h : IsLead c high) : c.toNat < 128 := by
  rcases h with h | ⟨rfl, -⟩
  · exact lt_of_isDigit h
  · decide

theorem pairBytes_cons_cons (hc : c.toNat < 128) : pairBytes text (c :: d :: digits) =
    match pairByte? c d with
    | some b => (pairBytes text digits).map (b :: ·)
    | none => .error (.notHexadecimal (String.ofList [c, d]) text) := by
  rw [pairBytes, if_pos (utf8Size_eq_one hc)]
  cases pairByte? c d with
  | none => rfl
  | some b => cases pairBytes text digits <;> rfl

theorem pairBytes_eq_ok_of_pairs (h : Pairs digits bytes) : pairBytes text digits = .ok bytes := by
  induction h with
  | nil => rfl
  | cons hc hd _ ih =>
      rw [pairBytes_cons_cons hc.lt, pairByte?_eq_some.mpr ⟨_, _, hc, hd, rfl⟩, ih]
      rfl

theorem pairs_of_pairBytes_eq_ok (h : pairBytes text digits = .ok bytes) : Pairs digits bytes := by
  fun_induction pairBytes text digits generalizing bytes with
  | case1 =>
      cases h
      exact .nil
  | case3 c _ d rest b hb ih =>
      cases hrest : pairBytes text rest with
      | error e =>
          rw [hrest] at h
          cases h
      | ok later =>
          rw [hrest] at h
          cases h
          exact pairs_cons.mpr ⟨b, later, hb, ih hrest, rfl⟩
  | case2 | case4 | case5 => cases h

/-! ### What denotes bytes -/

/-- The characters at even places may be plus signs. -/
theorem exists_pairs_iff (digits : List Char) :
    (∃ bytes, Pairs digits bytes) ↔ digits.length % 2 = 0 ∧ ∀ i (hi : i < digits.length),
      (∃ v, Text.IsDigit 16 digits[i] v) ∨ i % 2 = 0 ∧ digits[i] = '+' := by
  match digits with
  | [] => exact iff_of_true ⟨[], .nil⟩ ⟨rfl, fun i hi => absurd hi (Nat.not_lt_zero i)⟩
  | [c] => exact iff_of_false (fun ⟨_, h⟩ => nomatch h) (fun ⟨h, _⟩ => nomatch h)
  | c :: d :: rest =>
      constructor
      · rintro ⟨_, h⟩
        cases h with
        | cons hc hd h =>
            obtain ⟨heven, hall⟩ := (exists_pairs_iff rest).mp ⟨_, h⟩
            refine ⟨(Nat.add_mod_right rest.length 2).trans heven, fun i hi => ?_⟩
            match i with
            | 0 => exact hc.imp (fun h => ⟨_, h⟩) (fun h => ⟨rfl, h.1⟩)
            | 1 => exact .inl ⟨_, hd⟩
            | i + 2 =>
                rw [Nat.add_mod_right]
                exact hall i (Nat.lt_of_add_lt_add_right hi)
      · rintro ⟨heven, hall⟩
        have hlead : ∃ high, IsLead c high := by
          rcases hall 0 (by simp) with ⟨v, h⟩ | ⟨-, h⟩
          · exact ⟨v, .inl h⟩
          · exact ⟨0, .inr ⟨h, rfl⟩⟩
        have hdigit : ∃ low, Text.IsDigit 16 d low := by
          rcases hall 1 (by simp) with ⟨v, h⟩ | ⟨h, -⟩
          · exact ⟨v, h⟩
          · cases h
        have hrest : ∀ i (hi : i < rest.length),
            (∃ v, Text.IsDigit 16 rest[i] v) ∨ i % 2 = 0 ∧ rest[i] = '+' := by
          intro i hi
          rw [← Nat.add_mod_right i 2]
          exact hall (i + 2) (Nat.add_lt_add_right hi 2)
        obtain ⟨bytes, h⟩ := (exists_pairs_iff rest).mpr
          ⟨(Nat.add_mod_right rest.length 2).symm.trans heven, hrest⟩
        obtain ⟨high, hc⟩ := hlead
        obtain ⟨low, hd⟩ := hdigit
        exact ⟨_, .cons hc hd h⟩

theorem toList_hexByte {high low : Nat} (hhigh : high < 16) (hlow : low < 16) :
    (Text.hexByte (UInt8.ofNat (16 * high + low))).toList =
      [Text.upperDigit high, Text.upperDigit low] := by
  have hvalue : (UInt8.ofNat (16 * high + low)).toNat = 16 * high + low :=
    UInt8.toNat_ofNat_of_lt' (by simp only [UInt8.size]; omega)
  rw [Text.hexByte, String.toList_ofList, hvalue]
  congr 2 <;> congr 1 <;> omega

/-- Without plus signs, only the digits of the bytes denote them. -/
theorem Pairs.map_toUpper (h : Pairs digits bytes) (hplus : '+' ∉ digits) :
    digits.map Char.toUpper = Text.capitals bytes := by
  induction h with
  | nil => rfl
  | @cons c d high low rest bytes hc hd _ ih =>
      simp only [List.mem_cons, not_or] at hplus
      obtain ⟨hne, -, hrest⟩ := hplus
      have hhigh : Text.IsDigit 16 c high := hc.resolve_right fun h => hne h.1.symm
      rw [Text.capitals, List.flatMap_cons, toList_hexByte hhigh.1 hd.1, ← Text.capitals, ← ih hrest,
        List.map_cons, List.map_cons, hhigh.toUpper_eq, hd.toUpper_eq]
      rfl

theorem pairs_of_map_toUpper (h : digits.map Char.toUpper = Text.capitals bytes) :
    Pairs digits bytes := by
  induction bytes generalizing digits with
  | nil =>
      rw [List.map_eq_nil_iff.mp h]
      exact .nil
  | cons b bytes ih =>
      have hb := b.toNat_lt
      rw [Text.capitals, List.flatMap_cons, Text.hexByte, String.toList_ofList] at h
      obtain ⟨c, digits, rfl, hc, h⟩ := List.map_eq_cons_iff.mp h
      obtain ⟨d, digits, rfl, hd, h⟩ := List.map_eq_cons_iff.mp h
      have hbyte : b = UInt8.ofNat (16 * (b.toNat / 16) + b.toNat % 16) := by
        rw [Nat.div_add_mod, UInt8.ofNat_toNat]
      rw [hbyte]
      refine .cons (.inl (Text.isDigit_of_toUpper_eq ?_ hc)) (Text.isDigit_of_toUpper_eq ?_ hd) (ih h)
      · omega
      · omega

theorem utf8Len_of_forall_lt (h : ∀ c ∈ digits, c.toNat < 128) :
    String.utf8Len digits = digits.length := by
  induction digits with
  | nil => rfl
  | cons c digits ih =>
      obtain ⟨hc, hdigits⟩ := List.forall_mem_cons.mp h
      rw [String.utf8Len_cons, ih hdigits, utf8Size_eq_one hc, List.length_cons]

theorem Pairs.length_eq (h : Pairs digits bytes) : digits.length = 2 * bytes.length := by
  induction h with
  | nil => rfl
  | cons _ _ _ ih =>
      simp only [List.length_cons]
      omega

theorem Pairs.forall_lt (h : Pairs digits bytes) : ∀ c ∈ digits, c.toNat < 128 := by
  induction h with
  | nil => simp
  | cons hc hd _ ih => simpa using ⟨hc.lt, lt_of_isDigit hd, ih⟩

/-! ### Texts of messages -/

/-- The characters of a text but for blanks, colons and hyphens. -/
def significant (text : String) : List Char :=
  text.toList.filter fun c => !Text.isBlank c && c != ':' && c != '-'

/-- What is left of the characters without one prefix. -/
inductive Unprefixed : List Char → List Char → Prop where
  | lower (digits : List Char) : Unprefixed ('0' :: 'x' :: digits) digits
  | upper (digits : List Char) : Unprefixed ('0' :: 'X' :: digits) digits
  | plain {digits : List Char} (h : ∀ c rest, digits = '0' :: c :: rest → c ≠ 'x' ∧ c ≠ 'X') :
      Unprefixed digits digits

theorem hexDigits_eq (h : Unprefixed (significant text) digits) :
    hexDigits text.toList = digits := by
  unfold significant at h
  unfold hexDigits
  generalize text.toList.filter _ = kept at h ⊢
  cases h with
  | lower | upper => rfl
  | plain h =>
      split
      · exact absurd rfl (h _ _ rfl).1
      · exact absurd rfl (h _ _ rfl).2
      · rfl

theorem exists_unprefixed (kept : List Char) : ∃ digits, Unprefixed kept digits := by
  by_cases hprefix : ∃ c rest, kept = '0' :: c :: rest ∧ (c = 'x' ∨ c = 'X')
  · obtain ⟨c, rest, rfl, rfl | rfl⟩ := hprefix
    · exact ⟨rest, .lower rest⟩
    · exact ⟨rest, .upper rest⟩
  · refine ⟨kept, .plain fun c rest hkept => ?_⟩
    constructor
    · exact fun hc => hprefix ⟨c, rest, hkept, .inl hc⟩
    · exact fun hc => hprefix ⟨c, rest, hkept, .inr hc⟩

theorem Unprefixed.subset {kept : List Char} (h : Unprefixed kept digits) : digits ⊆ kept := by
  cases h with
  | lower | upper => exact fun c hc => List.mem_cons_of_mem _ (List.mem_cons_of_mem _ hc)
  | plain => exact fun c hc => hc

/-- A prefix is no pair, so what is already pairs has none. -/
theorem Pairs.unprefixed (h : Pairs digits bytes) : Unprefixed digits digits := by
  refine .plain fun x rest hdigits => ?_
  subst hdigits
  cases h with
  | cons _ hd _ =>
      constructor
      · rintro rfl
        exact Text.not_isDigit (by decide) hd
      · rintro rfl
        exact Text.not_isDigit (by decide) hd

theorem messageBytes_eq (h : Unprefixed (significant text) digits) : messageBytes text =
    if String.utf8Len digits % 2 = 0 then pairBytes text digits else .error (.oddDigits text) := by
  rw [messageBytes, hexDigits_eq h, String.utf8ByteSize_ofList]

theorem messageBytes_eq_ok_iff (h : Unprefixed (significant text) digits) :
    messageBytes text = .ok bytes ↔ Pairs digits bytes := by
  rw [messageBytes_eq h]
  constructor
  · intro hok
    split at hok
    · exact pairs_of_pairBytes_eq_ok hok
    · cases hok
  · intro hpairs
    have heven : String.utf8Len digits % 2 = 0 := by
      rw [utf8Len_of_forall_lt hpairs.forall_lt, hpairs.length_eq, Nat.mul_mod_right]
    rw [if_pos heven, pairBytes_eq_ok_of_pairs hpairs]

/-- Two characters that denote no byte, and what is pairs in front of them. -/
inductive FirstFault : List Char → List Char → Prop where
  | here {c d : Char} {rest : List Char} (hcd : ∀ b, ¬Pairs [c, d] [b]) :
      FirstFault (c :: d :: rest) [c, d]
  | later {c d : Char} {b : UInt8} {rest pair : List Char} (hcd : Pairs [c, d] [b])
      (h : FirstFault rest pair) : FirstFault (c :: d :: rest) pair

theorem pairs_pair : Pairs [c, d] [b] ↔ pairByte? c d = some b := by
  constructor
  · intro h
    obtain ⟨_, _, hb, -, heq⟩ := pairs_cons.mp h
    rw [hb, (List.cons.inj heq).1]
  · intro hb
    exact pairs_cons.mpr ⟨b, [], hb, .nil, rfl⟩

theorem pairBytes_eq_error (digits : List Char) (hascii : ∀ c ∈ digits, c.toNat < 128)
    (heven : digits.length % 2 = 0) {e : Failure} (h : pairBytes text digits = .error e) :
    ∃ pair, FirstFault digits pair ∧ e = .notHexadecimal (String.ofList pair) text := by
  match digits with
  | [] => cases h
  | [c] => cases heven
  | c :: d :: rest =>
      obtain ⟨hc, -, hrest⟩ := by simpa only [List.forall_mem_cons] using hascii
      rw [pairBytes_cons_cons hc] at h
      cases hcd : pairByte? c d with
      | none =>
          rw [hcd] at h
          cases h
          refine ⟨[c, d], .here fun b hb => ?_, rfl⟩
          rw [pairs_pair, hcd] at hb
          cases hb
      | some b =>
          rw [hcd] at h
          cases hlater : pairBytes text rest with
          | ok bytes =>
              rw [hlater] at h
              cases h
          | error e' =>
              rw [hlater] at h
              cases h
              have heven : rest.length % 2 = 0 := (Nat.add_mod_right rest.length 2).symm.trans heven
              obtain ⟨pair, hfault, he⟩ := pairBytes_eq_error rest hrest heven hlater
              exact ⟨pair, .later (pairs_pair.mpr hcd) hfault, he⟩

theorem messageBytes_eq_error (h : Unprefixed (significant text) digits)
    (hascii : ∀ c ∈ text.toList, c.toNat < 128) {e : Failure}
    (he : messageBytes text = .error e) :
    e = .oddDigits text ∧ digits.length % 2 = 1 ∨ digits.length % 2 = 0 ∧
      ∃ pair, FirstFault digits pair ∧ e = .notHexadecimal (String.ofList pair) text := by
  have hdigits : ∀ c ∈ digits, c.toNat < 128 :=
    fun c hc => hascii c (List.mem_of_mem_filter (h.subset hc))
  rw [messageBytes_eq h, utf8Len_of_forall_lt hdigits] at he
  split at he
  · next heven => exact .inr ⟨heven, pairBytes_eq_error digits hdigits heven he⟩
  · next hodd =>
      cases he
      exact .inl ⟨rfl, Nat.mod_two_ne_zero.mp hodd⟩

/-- A text is read exactly if its digits are pairs, and what the pairs denote is the result.  Without
a plus sign these are the spellings of the result in either case, with anything between them that
separates.  A text in ASCII that is not read has an odd number of digits, or its first pair that
denotes no byte is told. -/
theorem messageBytes_pairs (text : String) : ∃ digits, Unprefixed (significant text) digits ∧
    (∀ bytes, messageBytes text = .ok bytes ↔ Pairs digits bytes) ∧
    ((∃ bytes, messageBytes text = .ok bytes) ↔
      digits.length % 2 = 0 ∧ ∀ i (hi : i < digits.length),
        (∃ v, Text.IsDigit 16 digits[i] v) ∨ i % 2 = 0 ∧ digits[i] = '+') ∧
    ('+' ∉ text.toList → ∀ bytes,
      messageBytes text = .ok bytes ↔ digits.map Char.toUpper = Text.capitals bytes) ∧
    (∀ bytes, (significant text).map Char.toUpper = Text.capitals bytes →
      messageBytes text = .ok bytes) ∧
    ((∀ c ∈ text.toList, c.toNat < 128) → ∀ e, messageBytes text = .error e →
      e = .oddDigits text ∧ digits.length % 2 = 1 ∨ digits.length % 2 = 0 ∧
        ∃ pair, FirstFault digits pair ∧ e = .notHexadecimal (String.ofList pair) text) := by
  obtain ⟨digits, h⟩ := exists_unprefixed (significant text)
  refine ⟨digits, h, fun bytes => messageBytes_eq_ok_iff h, ?accepted, ?plain, ?spelled, ?refused⟩
  case accepted =>
    simp only [messageBytes_eq_ok_iff h]
    exact exists_pairs_iff digits
  case plain =>
    intro hplus bytes
    rw [messageBytes_eq_ok_iff h]
    constructor
    · intro hpairs
      exact hpairs.map_toUpper fun hmem => hplus (List.mem_of_mem_filter (h.subset hmem))
    · exact pairs_of_map_toUpper
  case spelled =>
    intro bytes hbytes
    have hpairs : Pairs (significant text) bytes := pairs_of_map_toUpper hbytes
    exact (messageBytes_eq_ok_iff hpairs.unprefixed).mpr hpairs
  case refused => exact fun hascii e he => messageBytes_eq_error h hascii he

/-- A plus sign is no digit, and is read as the first of a pair. -/
theorem messageBytes_plus : messageBytes "+5" = .ok [5] ∧
    Unprefixed (significant "+5") ['+', '5'] ∧ ∀ v, ¬Text.IsDigit 16 '+' v := by
  have hlead : IsLead '+' 0 := .inr ⟨rfl, rfl⟩
  have hfive : Text.IsDigit 16 '5' 5 := Text.isDigit_iff.mpr ⟨rfl, by omega⟩
  have hpairs : Pairs ['+', '5'] [5] := .cons hlead hfive .nil
  have hunprefixed : Unprefixed (significant "+5") ['+', '5'] := hpairs.unprefixed
  exact ⟨(messageBytes_eq_ok_iff hunprefixed).mpr hpairs, hunprefixed, fun v => not_isDigit_plus⟩

end CommandLine

end WireSpec
