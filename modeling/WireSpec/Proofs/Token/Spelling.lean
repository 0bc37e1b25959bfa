import Mathlib.Data.Nat.Digits.Defs
import WireSpec.Proofs.Token.Gaps
/-!
# Spelling tokens

A token can be spelled in many ways: an integer in four bases, with letters of either case and any
zeros in front, and a character of a literal as it is or as an escape sequence.  The spellings are
described here by themselves.  Scanning a text that spells tokens, with a gap behind each that
begins with a blank, gives back these tokens.
-/

namespace WireSpec

/-! ### Spellings -/

namespace Text

/-- A digit of a base, in either case, and what it counts. -/
def IsDigit (base : Nat) (c : Char) (value : Nat) : Prop :=
  value < base ∧ (c = value.digitChar ∨ c = value.digitChar.toUpper)

instance (base : Nat) (c : Char) (value : Nat) : Decidable (IsDigit base c value) :=
  inferInstanceAs (Decidable (_ ∧ _))

/-- Digits of a base and the number they stand for, the most significant digit first. -/
def IsNumeral (base : Nat) (digits : List Char) (n : Nat) : Prop :=
  digits ≠ [] ∧ ∃ values, List.Forall₂ (IsDigit base) digits values ∧
    Nat.ofDigits base values.reverse = n

end Text

/-- The letters that follow a zero in front of a numeral, and the bases they stand for. -/
def baseLetters : List (Char × Nat) :=
  [('x', 16), ('X', 16), ('b', 2), ('B', 2), ('o', 8), ('O', 8)]

inductive SpellsInteger : Nat → List Char → Prop where
  | decimal {n : Nat} {digits : List Char} (h : Text.IsNumeral 10 digits n) :
      SpellsInteger n digits
  | based {n base : Nat} {letter : Char} {digits : List Char}
      (hletter : (letter, base) ∈ baseLetters) (h : Text.IsNumeral base digits n) :
      SpellsInteger n ('0' :: letter :: digits)

/-- The characters that follow a backslash, and the characters these sequences stand for. -/
def escapes : List (Char × Char) :=
  [('n', '\n'), ('r', '\r'), ('t', '\t'), ('0', '\x00'), ('\\', '\\'), ('"', '"'), ('\'', '\'')]

namespace QuotedLiteral

/-- The character may stand for itself. -/
def Raw : QuotedLiteral → Char → Prop
  | string, c => c ≠ '"' ∧ c ≠ '\\'
  | char, c => c ≠ '\'' ∧ c ≠ '\\' ∧ c ≠ '\n'

instance (literal : QuotedLiteral) (c : Char) : Decidable (literal.Raw c) :=
  match literal with
  | string => inferInstanceAs (Decidable (_ ∧ _))
  | char => inferInstanceAs (Decidable (_ ∧ _ ∧ _))

inductive Spells (literal : QuotedLiteral) : Char → List Char → Prop where
  | raw {c : Char} (h : literal.Raw c) : Spells literal c [c]
  | escape {e c : Char} (h : (e, c) ∈ escapes) : Spells literal c ['\\', e]

end QuotedLiteral

/-- The text spells a token of the kind.  Floats are left out, and a numeral that does not fit in
64 bits spells an invalid token. -/
inductive TokenKind.Spells : TokenKind → List Char → Prop where
  | identifier {c : Char} {tail : List Char} (hc : c.isAlpha = true ∨ c = '_')
      (htail : ∀ d ∈ tail, d.isAlphanum = true ∨ d = '_')
      (hword : ∀ k : Keyword, k.word ≠ String.ofList (c :: tail)) :
      Spells (.identifier (String.ofList (c :: tail))) (c :: tail)
  | keyword (k : Keyword) : Spells (.keyword k) k.word.toList
  | symbol (s : Symbol) : Spells (.symbol s) s.text.toList
  | integer {value : UInt64} {text : List Char} (h : SpellsInteger value.toNat text) :
      Spells (.integer value) text
  | tooLarge {n : Nat} {text : List Char} (h : SpellsInteger n text) (hn : 2 ^ 64 ≤ n) :
      Spells .invalid text
  | string {contents : List Char} {spellings : List (List Char)}
      (h : List.Forall₂ (QuotedLiteral.Spells .string) contents spellings) :
      Spells (.string (String.ofList contents)) ('"' :: (spellings.flatten ++ ['"']))
  | char {c : Char} {spelling : List Char} (h : QuotedLiteral.Spells .char c spelling) :
      Spells (.char c) ('\'' :: (spelling ++ ['\'']))

/-- The text spells the tokens, each with a gap behind it that begins with a blank. -/
inductive SpellsAll : List TokenKind → List Char → Prop where
  | nil : SpellsAll [] []
  | cons {kind : TokenKind} {kinds : List TokenKind} {text gap rest : List Char} {blank : Char}
      (htext : kind.Spells text) (hblank : Text.isBlank blank = true)
      (hgap : Gap (blank :: gap) rest) (h : SpellsAll kinds rest) :
      SpellsAll (kind :: kinds) (text ++ blank :: (gap ++ rest))

/-! ### Characters of words -/

theorem lt_of_isWordChar {c : Char} (h : Piece.isWordChar c = true) : c.toNat < 128 := by
  have hbelow {last : Char} (hc : c.val ≤ last.val) (hlast : last.toNat < 128) : c.toNat < 128 :=
    Nat.lt_of_le_of_lt (UInt32.le_iff_toNat_le.mp hc) hlast
  rcases Bool.or_eq_true_iff.mp h with h | hunderscore
  · rcases Bool.or_eq_true_iff.mp h with h | hdigit
    · rcases Bool.or_eq_true_iff.mp h with hupper | hlower
      · exact hbelow (of_decide_eq_true hupper).2 (by decide)
      · exact hbelow (of_decide_eq_true (Bool.and_eq_true_iff.mp hlower).2) (by decide)
    · exact hbelow (of_decide_eq_true (Bool.and_eq_true_iff.mp hdigit).2) (by decide)
  · rw [eq_of_beq hunderscore]
    decide

/-- What holds of every character with a code below 128 can be checked code by code. -/
theorem forall_lt_128 {P : Char → Prop} (h : ∀ n < 128, P (Char.ofNat n)) {c : Char}
    (hc : c.toNat < 128) : P c := by
  have hchar := h c.toNat hc
  rwa [Char.ofNat_toNat] at hchar

theorem not_isBlank_of_isWordChar {c : Char} (h : Piece.isWordChar c = true) :
    Text.isBlank c = false :=
  forall_lt_128 (P := fun c => Piece.isWordChar c = true → Text.isBlank c = false)
    (by decide) (lt_of_isWordChar h) h

theorem not_isWordChar_of_isBlank {c : Char} (h : Text.isBlank c = true) :
    Piece.isWordChar c = false := by
  by_contra hword
  rw [not_isBlank_of_isWordChar (eq_true_of_ne_false hword)] at h
  cases h

theorem not_isAlphanum_of_isBlank {c : Char} (h : Text.isBlank c = true) :
    c.isAlphanum = false :=
  (Bool.or_eq_false_iff.mp (not_isWordChar_of_isBlank h)).1

theorem not_isDigit_of_isBlank {c : Char} (h : Text.isBlank c = true) : c.isDigit = false :=
  (Bool.or_eq_false_iff.mp (not_isAlphanum_of_isBlank h)).2

theorem ne_of_isBlank {c d : Char} (h : Text.isBlank c = true) (hd : Text.isBlank d = false) :
    c ≠ d := by
  rintro rfl
  rw [h] at hd
  cases hd

/-! ### Numerals -/

namespace Text

/-- What holds of the digits of a base can be checked value by value. -/
theorem IsDigit.of_forall {base value : Nat} {c : Char} {P : Char → Nat → Prop}
    (hP : ∀ v < base, P v.digitChar v ∧ P v.digitChar.toUpper v) (h : IsDigit base c value) :
    P c value := by
  obtain ⟨hlower, hupper⟩ := hP value h.1
  rcases h.2 with rfl | rfl
  · exact hlower
  · exact hupper

theorem IsDigit.digitValue_eq {base value : Nat} {c : Char} (h : IsDigit base c value)
    (hbase : base ≤ 16) : digitValue c = value ∧ c.isAlphanum = true := by
  have hdigits : ∀ v < 16, (digitValue v.digitChar = v ∧ v.digitChar.isAlphanum = true) ∧
      digitValue v.digitChar.toUpper = v ∧ v.digitChar.toUpper.isAlphanum = true := by decide
  exact h.of_forall (P := fun c v => digitValue c = v ∧ c.isAlphanum = true)
    fun v hv => hdigits v (hv.trans_le hbase)

theorem IsDigit.isDigit {value : Nat} {c : Char} (h : IsDigit 10 c value) : c.isDigit = true :=
  h.of_forall (P := fun c _ => c.isDigit = true) (by decide)

variable {base n : Nat} {digits : List Char}

theorem IsNumeral.forall_mem {P : Char → Prop} (h : IsNumeral base digits n)
    (hP : ∀ c v, IsDigit base c v → P c) : ∀ c ∈ digits, P c := by
  obtain ⟨-, values, hvalues, -⟩ := h
  induction hvalues with
  | nil => simp
  | cons hdigit hvalues ih => exact List.forall_mem_cons.mpr ⟨hP _ _ hdigit, ih⟩

theorem IsNumeral.foldl_eq (h : IsNumeral base digits n) (hbase : base ≤ 16) :
    digits.foldl (fun n c => n * base + digitValue c) 0 = n := by
  have hfold : ∀ {digits : List Char} {values : List Nat},
      List.Forall₂ (IsDigit base) digits values → ∀ n,
        digits.foldl (fun n c => n * base + digitValue c) n =
          values.foldl (fun n v => v + base * n) n := by
    intro digits values hvalues
    induction hvalues with
    | nil => exact fun n => rfl
    | cons hdigit hvalues ih =>
        intro n
        rw [List.foldl_cons, List.foldl_cons, (hdigit.digitValue_eq hbase).1, ih, Nat.mul_comm,
          Nat.add_comm]
  obtain ⟨-, values, hvalues, rfl⟩ := h
  rw [hfold hvalues, Nat.ofDigits_eq_foldr, List.foldr_reverse]
  rfl

theorem IsNumeral.numeral?_eq (h : IsNumeral base digits n) (hbase : base ≤ 16) :
    numeral? base digits = some n := by
  have hall : digits.all (fun c => decide (digitValue c < base)) = true := by
    refine List.all_eq_true.mpr (h.forall_mem fun c v hdigit => ?_)
    rw [(hdigit.digitValue_eq hbase).1]
    exact decide_eq_true hdigit.1
  unfold numeral?
  rw [if_pos hall, h.foldl_eq hbase]

end Text

namespace Piece

/-- The piece of an integer, which is invalid if it does not fit. -/
def ofInteger (extra n : Nat) (error : LexicalError) : Piece :=
  match word64? n with
  | some value => token extra (.integer value)
  | none => malformed extra error

theorem basedInteger_append {letter blank : Char} {base n : Nat} {digits : List Char}
    (h : Text.IsNumeral base digits n) (hbase : base ≤ 16) (hblank : Text.isBlank blank = true)
    (rest : List Char) :
    basedInteger letter base (digits ++ blank :: rest) =
      ofInteger (1 + digits.length) n
        (.malformedInteger (String.ofList ('0' :: letter :: digits))) := by
  have hdigits : (digits ++ blank :: rest).takeWhile Char.isAlphanum = digits :=
    takeWhile_append_stop (h.forall_mem fun c v hdigit => (hdigit.digitValue_eq hbase).2)
      (by simp [not_isAlphanum_of_isBlank hblank])
  cases hword : word64? n <;>
    simp only [basedInteger, ofInteger, hdigits, h.1, h.numeral?_eq hbase, hword,
      List.isEmpty_eq_false_iff.mpr, Option.bind_some, Bool.false_eq_true, if_false, ne_eq,
      not_false_eq_true]

theorem decimalNumber_append {c blank : Char} {n : Nat} {tail : List Char}
    (h : Text.IsNumeral 10 (c :: tail) n) (hblank : Text.isBlank blank = true)
    (rest : List Char) :
    decimalNumber c (tail ++ blank :: rest) =
      ofInteger tail.length n (.integerTooLarge (String.ofList (c :: tail))) := by
  have hwhole : (tail ++ blank :: rest).takeWhile Char.isDigit = tail :=
    takeWhile_append_stop
      (List.forall_mem_cons.mp (h.forall_mem fun c v hdigit => hdigit.isDigit)).2
      (by simp [not_isDigit_of_isBlank hblank])
  have hfraction : fractionDigits (blank :: rest) = [] := by
    unfold fractionDigits
    split
    · rename_i heq
      exact absurd (List.cons.inj heq).1 (ne_of_isBlank hblank (by decide))
    · rfl
  have hexponent : exponentDigits (blank :: rest) = none := by
    unfold exponentDigits
    have he : blank ≠ 'e' := ne_of_isBlank hblank (by decide)
    have hE : blank ≠ 'E' := ne_of_isBlank hblank (by decide)
    simp [he, hE]
  have hvalue := h.foldl_eq (by decide)
  cases hword : word64? n <;>
    simp only [decimalNumber, ofInteger, hwhole, List.drop_left, hfraction, hexponent,
      List.isEmpty_nil, if_true, List.drop_zero, List.append_nil, hvalue, hword]

theorem number_eq_decimalNumber {c : Char} {rest : List Char}
    (h : ∀ letter ∈ rest.head?, baseOf? letter = none) : number c rest = decimalNumber c rest := by
  unfold number
  split
  · rename_i letter behind
    rw [h letter rfl, ite_self]
  · rfl

theorem baseOf?_eq_some {c : Char} {base : Nat} :
    baseOf? c = some base ↔ (c, base) ∈ baseLetters := by
  constructor
  · intro h
    unfold baseOf? at h
    split at h <;> cases h <;> decide
  · have hbase : ∀ p ∈ baseLetters, baseOf? p.1 = some p.2 := by decide
    exact hbase (c, base)

theorem baseOf?_eq_none {p : Char → Bool} {c : Char} (hc : p c = true)
    (hp : ∀ x ∈ baseLetters, p x.1 = false) : baseOf? c = none := by
  cases hbase : baseOf? c with
  | none => rfl
  | some base =>
      have hfalse := hp _ (baseOf?_eq_some.mp hbase)
      rw [hc] at hfalse
      cases hfalse

theorem number_zero_of_mem {letter : Char} {base : Nat} (h : (letter, base) ∈ baseLetters)
    (rest : List Char) : number '0' (letter :: rest) = basedInteger letter base rest := by
  unfold number
  simp only [if_true, baseOf?_eq_some.mpr h]

/-! ### Words, literals and symbols -/

theorem read_of_isDigit {c : Char} (hc : c.isDigit = true) (rest : List Char) :
    read c rest = number c rest := by
  have hblank : Text.isBlank c = false := not_isBlank_of_isWordChar (by simp [isWordChar,
    Char.isAlphanum, hc])
  unfold read
  rw [hblank, hc]
  rfl

theorem read_of_isAlpha {c : Char} (hc : c.isAlpha = true ∨ c = '_') (rest : List Char) :
    read c rest = word c rest := by
  have hstart : (c.isAlpha || c == '_') = true := by simpa using hc
  have hword : isWordChar c = true := by
    rcases hc with hc | rfl
    · simp [isWordChar, Char.isAlphanum, hc]
    · decide
  have hdigit : c.isDigit = false :=
    forall_lt_128 (P := fun c => (c.isAlpha || c == '_') = true → c.isDigit = false) (by decide)
      (lt_of_isWordChar hword) hstart
  unfold read
  rw [not_isBlank_of_isWordChar hword, hdigit, hstart]
  rfl

theorem word_append {c blank : Char} {tail : List Char}
    (htail : ∀ d ∈ tail, isWordChar d = true) (hblank : Text.isBlank blank = true)
    (rest : List Char) :
    word c (tail ++ blank :: rest) =
      token tail.length
        (match Keyword.ofWord? (String.ofList (c :: tail)) with
        | some keyword => .keyword keyword
        | none => .identifier (String.ofList (c :: tail))) := by
  have hword : (tail ++ blank :: rest).takeWhile isWordChar = tail :=
    takeWhile_append_stop htail (by simp [not_isWordChar_of_isBlank hblank])
  cases hkeyword : Keyword.ofWord? (String.ofList (c :: tail)) <;>
    simp only [word, hword, hkeyword]

theorem unescape?_of_mem {e c : Char} (h : (e, c) ∈ escapes) : unescape? e = some c := by
  have hescapes : ∀ p ∈ escapes, unescape? p.1 = some p.2 := by decide
  exact hescapes _ h

theorem stringBody_append {contents : List Char} {spellings : List (List Char)}
    (h : List.Forall₂ (QuotedLiteral.Spells .string) contents spellings) (offset : Nat)
    (rest : List Char) :
    stringBody offset (spellings.flatten ++ '"' :: rest) =
      ⟨contents, offset + spellings.flatten.length + 1, true, []⟩ := by
  induction h generalizing offset with
  | nil => rfl
  | @cons c spelling contents spellings hspelling h ih =>
      cases hspelling with
      | raw hraw =>
          have hbody := ih (offset + 1)
          simp only [List.flatten_cons, List.cons_append, List.nil_append]
          rw [stringBody, hbody]
          · simp
            omega
          · exact hraw.1
          · exact fun hc => absurd hc hraw.2
          · exact fun _ _ hc => absurd hc hraw.2
      | @escape e _ hescape =>
          have hbody := ih (offset + 2)
          simp only [List.flatten_cons, List.cons_append, List.nil_append]
          rw [stringBody, hbody]
          simp [unescape?_of_mem hescape, escapeProblem]
          omega

theorem string_append {contents : List Char} {spellings : List (List Char)}
    (h : List.Forall₂ (QuotedLiteral.Spells .string) contents spellings) (rest : List Char) :
    string (spellings.flatten ++ '"' :: rest) =
      token (spellings.flatten.length + 1) (.string (String.ofList contents)) := by
  unfold string
  rw [stringBody_append h]
  simp [token, Nat.add_comm 1]

theorem charLiteral_append {c : Char} {spelling : List Char}
    (h : QuotedLiteral.Spells .char c spelling) (rest : List Char) :
    charLiteral (spelling ++ '\'' :: rest) = token (spelling.length + 1) (.char c) := by
  cases h with
  | raw hraw =>
      rw [List.singleton_append, charLiteral]
      · rfl
      · exact hraw.2.2
      · exact hraw.1
      · exact fun hc => absurd hc hraw.2.1
      · exact fun _ _ hc => absurd hc hraw.2.1
  | escape hescape =>
      simp [charLiteral, closeChar, unescape?_of_mem hescape, escapeProblem, token]

/-- The character begins no other piece than a symbol or a comment. -/
def IsMark (c : Char) : Prop :=
  Text.isBlank c = false ∧ isWordChar c = false ∧ c ≠ '"' ∧ c ≠ '\''

instance (c : Char) : Decidable (IsMark c) :=
  inferInstanceAs (Decidable (_ ∧ _))

theorem read_of_isMark {c : Char} {rest : List Char} (hc : IsMark c)
    (hslash : c = '/' → ∀ d ∈ rest.head?, d ≠ '/' ∧ d ≠ '*') : read c rest = symbol c rest := by
  obtain ⟨hblank, hword, hquote, hapostrophe⟩ := hc
  simp only [isWordChar, Char.isAlphanum, Bool.or_eq_false_iff] at hword
  obtain ⟨⟨halpha, hdigit⟩, hunderscore⟩ := hword
  unfold read
  rw [hblank, hdigit, halpha, hunderscore]
  simp only [Bool.false_eq_true, if_false, Bool.or_self]
  split
  · exact absurd rfl (hslash rfl _ rfl).1
  · exact absurd rfl (hslash rfl _ rfl).2
  · exact absurd rfl hquote
  · exact absurd rfl hapostrophe
  · rfl

theorem ofChars?_of_isBlank {c d : Char} (h : Text.isBlank d = true) :
    Symbol.ofChars? c d = none := by
  unfold Symbol.ofChars?
  split <;> first | rfl | exact absurd h (by decide)

end Piece

theorem Symbol.text_cases (s : Symbol) :
    (∃ c, s.text.toList = [c] ∧ Piece.IsMark c ∧ ofChar? c = some s) ∨
      ∃ c d, s.text.toList = [c, d] ∧ Piece.IsMark c ∧ c ≠ '/' ∧ ofChars? c d = some s := by
  cases s <;>
    first
    | exact .inl ⟨_, rfl, by decide, rfl⟩
    | exact .inr ⟨_, _, rfl, by decide, by decide, rfl⟩

namespace Keyword

theorem mem_all (k : Keyword) : k ∈ all := by
  cases k with
  | modifier w => cases w <;> decide
  | reserved w => cases w <;> decide
  | type t =>
      cases t with
      | int kind => cases kind <;> decide
      | _ => decide
  | _ => decide

theorem ofWord?_word (k : Keyword) : ofWord? k.word = some k := by
  have hall : ∀ k ∈ all, ofWord? k.word = some k := by decide +kernel
  exact hall k (mem_all k)

theorem ofWord?_eq_none {w : String} (h : ∀ k : Keyword, k.word ≠ w) : ofWord? w = none :=
  List.find?_eq_none.mpr fun k _ => by simpa using h k

/-- Keywords are words. -/
theorem exists_word_eq (k : Keyword) :
    ∃ c tail, k.word.toList = c :: tail ∧ c.isAlpha = true ∧
      ∀ d ∈ tail, Piece.isWordChar d = true := by
  have hall : ∀ k ∈ all, k.word.toList.head?.any Char.isAlpha = true ∧
      k.word.toList.all Piece.isWordChar = true := by decide +kernel
  obtain ⟨hfirst, hchars⟩ := hall k (mem_all k)
  cases hword : k.word.toList with
  | nil => simp [hword] at hfirst
  | cons c tail =>
      rw [hword] at hfirst hchars
      exact ⟨c, tail, rfl, hfirst, (List.forall_mem_cons.mp (List.all_eq_true.mp hchars)).2⟩

end Keyword

/-! ### Scanning what is spelled -/

namespace Piece

/-- In front of a blank, the text is read as one token of the kind, with one problem if the token
is invalid and without any if it is not. -/
def ReadsAs (kind : TokenKind) (text : List Char) : Prop :=
  ∃ c tail, text = c :: tail ∧ ∀ blank rest, Text.isBlank blank = true →
    ∃ piece, read c (tail ++ blank :: rest) = piece ∧ piece.extra = tail.length ∧
      piece.kind = some kind ∧ piece.problems.length = [kind].count .invalid

theorem readsAs_of_token {kind : TokenKind} {c : Char} {tail : List Char}
    (hkind : kind ≠ .invalid)
    (h : ∀ blank rest, Text.isBlank blank = true →
      read c (tail ++ blank :: rest) = token tail.length kind) : ReadsAs kind (c :: tail) := by
  refine ⟨c, tail, rfl, fun blank rest hblank => ⟨_, h blank rest hblank, rfl, rfl, ?_⟩⟩
  rw [List.count_singleton]
  simp [token, hkind]

theorem readsAs_of_ofInteger {n : Nat} {c : Char} {tail : List Char} (hc : c.isDigit = true)
    (error : LexicalError)
    (h : ∀ blank rest, Text.isBlank blank = true →
      number c (tail ++ blank :: rest) = ofInteger tail.length n error) :
    ReadsAs (((word64? n).map TokenKind.integer).getD .invalid) (c :: tail) := by
  refine ⟨c, tail, rfl, fun blank rest hblank =>
    ⟨_, (read_of_isDigit hc _).trans (h blank rest hblank), ?_⟩⟩
  unfold ofInteger
  cases word64? n with
  | none => exact ⟨rfl, rfl, rfl⟩
  | some value => exact ⟨rfl, rfl, rfl⟩

theorem readsAs_of_spellsInteger {n : Nat} {text : List Char} (h : SpellsInteger n text) :
    ReadsAs (((word64? n).map TokenKind.integer).getD .invalid) text := by
  cases h with
  | @decimal digits h =>
      obtain ⟨c, tail, rfl⟩ := List.exists_cons_of_ne_nil h.1
      have hdigits := List.forall_mem_cons.mp (h.forall_mem fun c v hdigit => hdigit.isDigit)
      refine readsAs_of_ofInteger hdigits.1 (.integerTooLarge (String.ofList (c :: tail)))
        fun blank rest hblank => ?_
      rw [number_eq_decimalNumber, decimalNumber_append h hblank]
      intro letter hletter
      cases tail with
      | nil =>
          obtain rfl : blank = letter := by simpa using hletter
          exact baseOf?_eq_none hblank (by decide)
      | cons d tail =>
          obtain rfl : d = letter := by simpa using hletter
          exact baseOf?_eq_none (hdigits.2 d List.mem_cons_self) (by decide)
  | @based base letter digits hletter h =>
      have hbase : ∀ p ∈ baseLetters, p.2 ≤ 16 := by decide
      refine readsAs_of_ofInteger (by decide)
        (.malformedInteger (String.ofList ('0' :: letter :: digits))) fun blank rest hblank => ?_
      rw [List.cons_append, number_zero_of_mem hletter,
        basedInteger_append h (hbase _ hletter) hblank, List.length_cons, Nat.add_comm]

theorem readsAs_of_spells {kind : TokenKind} {text : List Char} (h : kind.Spells text) :
    ReadsAs kind text := by
  cases h with
  | @identifier c tail hc htail hword =>
      refine readsAs_of_token (by simp) fun blank rest hblank => ?_
      have htail' : ∀ d ∈ tail, isWordChar d = true := by simpa [isWordChar] using htail
      rw [read_of_isAlpha hc, word_append htail' hblank, Keyword.ofWord?_eq_none hword]
  | keyword k =>
      obtain ⟨c, tail, hword, hc, htail⟩ := k.exists_word_eq
      rw [hword]
      refine readsAs_of_token (by simp) fun blank rest hblank => ?_
      rw [read_of_isAlpha (.inl hc), word_append htail hblank, ← hword, String.ofList_toList,
        k.ofWord?_word]
  | symbol s =>
      rcases s.text_cases with ⟨c, htext, hc, hs⟩ | ⟨c, d, htext, hc, hslash, hs⟩
      · rw [htext]
        refine readsAs_of_token (by simp) fun blank rest hblank => ?_
        rw [List.nil_append, read_of_isMark hc]
        · simp [symbol, ofChars?_of_isBlank hblank, hs]
        · intro _ d hd
          obtain rfl : blank = d := by simpa using hd
          exact ⟨ne_of_isBlank hblank (by decide), ne_of_isBlank hblank (by decide)⟩
      · rw [htext]
        refine readsAs_of_token (by simp) fun blank rest hblank => ?_
        rw [read_of_isMark hc fun h => absurd h hslash]
        simp [symbol, hs]
  | @integer value text h =>
      have hvalue : word64? value.toNat = some value := by
        unfold word64?
        rw [if_pos value.toNat_lt, UInt64.ofNat_toNat]
      have hread := readsAs_of_spellsInteger h
      rwa [hvalue] at hread
  | @tooLarge n text h hn =>
      have hvalue : word64? n = none := if_neg (Nat.not_lt.mpr hn)
      have hread := readsAs_of_spellsInteger h
      rwa [hvalue] at hread
  | string h =>
      refine readsAs_of_token (by simp) fun blank rest _ => ?_
      rw [List.append_assoc, List.length_append]
      exact string_append h (blank :: rest)
  | char h =>
      refine readsAs_of_token (by simp) fun blank rest _ => ?_
      rw [List.append_assoc, List.length_append]
      exact charLiteral_append h (blank :: rest)

end Piece

namespace Scan

theorem textFrom_of_spellsAll {kinds : List TokenKind} {text : List Char}
    (h : SpellsAll kinds text) (p : Position) :
    (textFrom p text).tokens.map (·.kind) = kinds ++ [.endOfInput] ∧
      (textFrom p text).problems.length = kinds.count .invalid := by
  induction h generalizing p with
  | nil => simp
  | @cons kind kinds text gap rest blank htext hblank hgap h ih =>
      obtain ⟨c, tail, rfl, hread⟩ := Piece.readsAs_of_spells htext
      obtain ⟨piece, hpiece, hextra, hkind, hproblems⟩ := hread blank (gap ++ rest) hblank
      obtain ⟨htokens, hcount⟩ := ih ((p.after (c :: tail)).after (blank :: gap))
      rw [List.cons_append, textFrom_append hpiece hextra, ← List.cons_append, textFrom_gap hgap]
      generalize textFrom ((p.after (c :: tail)).after (blank :: gap)) rest = later
        at htokens hcount
      constructor
      · simp [withPiece, hkind, htokens]
      · change _ = ([kind] ++ kinds).count .invalid
        rw [List.count_append, ← hproblems, ← hcount]
        simp [withPiece]

/-- Scanning gives back the tokens that a text spells, and finds one problem for each numeral that
is too large. -/
theorem kinds_of_spellsAll {kinds : List TokenKind} {source : String}
    (h : SpellsAll kinds source.toList) :
    (Scan.source source).tokens.map (·.kind) = kinds ++ [.endOfInput] ∧
      (Scan.source source).problems.length = kinds.count .invalid :=
  textFrom_of_spellsAll h .start

/-- Tokens of all sorts, one of them a numeral that is too large. -/
theorem kinds_of_spellsAll_mixed :
    SpellsAll [.identifier "a1", .integer 255, .invalid, .char '\n', .string "'", .symbol .dotDot]
      "a1 /*/**/*/ 0XfF 18446744073709551616 //x\n'\\n' \"'\" .. //".toList ∧
    (source "a1 /*/**/*/ 0XfF 18446744073709551616 //x\n'\\n' \"'\" .. //").tokens.map
        (·.kind) =
      [.identifier "a1", .integer 255, .invalid, .char '\n', .string "'", .symbol .dotDot,
        .endOfInput] ∧
    (source "a1 /*/**/*/ 0XfF 18446744073709551616 //x\n'\\n' \"'\" .. //").problems.length =
      1 := by
  have hspace : ∀ rest, Gap [' '] rest := fun rest => .blank (by decide) .nil
  have hcomment : ∀ rest, Gap [' ', '/', '*', '/', '*', '*', '/', '*', '/', ' '] rest :=
    fun rest => .blank (by decide) (.block (.comment .nil .nil) (hspace rest))
  have hline : ∀ rest, Gap [' ', '/', '/', 'x', '\n'] rest := fun rest =>
    .blank (by decide) (Gap.line (by decide : '\n' ∉ ['x']) (by simp) (.blank (by decide) .nil))
  have hlast : Gap [' ', '/', '/'] [] :=
    .blank (by decide) (Gap.line (by decide : '\n' ∉ []) (by simp) .nil)
  have hname : ∀ k ∈ Keyword.all, k.word ≠ "a1" := by decide +kernel
  have hbyte : Text.IsNumeral 16 ['f', 'F'] (255 : UInt64).toNat :=
    ⟨by decide, [15, 15], by decide, by decide⟩
  have hlarge : Text.IsNumeral 10
      ['1', '8', '4', '4', '6', '7', '4', '4', '0', '7', '3', '7', '0', '9', '5', '5', '1', '6',
        '1', '6'] (2 ^ 64) :=
    ⟨by decide, [1, 8, 4, 4, 6, 7, 4, 4, 0, 7, 3, 7, 0, 9, 5, 5, 1, 6, 1, 6], by decide, by decide⟩
  have hletter : ('X', 16) ∈ baseLetters := by decide
  have hraw : QuotedLiteral.Raw .string '\'' := by decide
  have hescape : ('n', '\n') ∈ escapes := by decide
  have hspells := SpellsAll.cons (.symbol .dotDot) (by decide) hlast .nil
  have hspells := SpellsAll.cons (.string (.cons (.raw hraw) .nil)) (by decide) (hspace _) hspells
  have hspells := SpellsAll.cons (.char (.escape hescape)) (by decide) (hspace _) hspells
  have hspells :=
    SpellsAll.cons (.tooLarge (.decimal hlarge) le_rfl) (by decide) (hline _) hspells
  have hspells :=
    SpellsAll.cons (.integer (.based hletter hbyte)) (by decide) (hspace _) hspells
  have hspells := SpellsAll.cons
    (.identifier (.inl (by decide : 'a'.isAlpha = true))
      (List.forall_mem_singleton.mpr (.inl (by decide))) fun k => hname k k.mem_all)
    (by decide) (hcomment _) hspells
  exact ⟨hspells, @kinds_of_spellsAll _
    "a1 /*/**/*/ 0XfF 18446744073709551616 //x\n'\\n' \"'\" .. //" hspells⟩

end Scan

end WireSpec
