import Mathlib.Data.List.Basic
import Mathlib.Order.Nat
import WireSpec.Proofs.Token.Tiling
/-!
# The order of lexical problems

Scanning reports problems piece by piece, so those of one piece stand in front of those of the
next.  Within a piece there is at most one problem with its beginning, and there are the unknown
escape sequences of a literal, from the left to the right.  A literal that is not closed has both,
the problem with its beginning last: only there the order of the reports is not that of the text.
-/

namespace WireSpec

/-- Places that do not decrease, between two others. -/
structure Rises (lo : Nat) (places : List Nat) (hi : Nat) : Prop where
  sorted : places.Pairwise (· ≤ ·)
  le : lo ≤ hi
  within : ∀ n ∈ places, lo ≤ n ∧ n ≤ hi

namespace Rises

variable {lo mid hi n : Nat} {ms ns : List Nat}

theorem nil (h : lo ≤ hi) : Rises lo [] hi := ⟨.nil, h, by simp⟩

theorem cons (hle : lo ≤ n) (h : Rises n ns hi) : Rises lo (n :: ns) hi := by
  refine ⟨List.pairwise_cons.mpr ⟨fun m hm => (h.within m hm).1, h.sorted⟩, hle.trans h.le, ?_⟩
  refine List.forall_mem_cons.mpr ⟨⟨hle, h.le⟩, fun m hm => ?_⟩
  exact ⟨hle.trans (h.within m hm).1, (h.within m hm).2⟩

theorem mono {lo' hi' : Nat} (h : Rises lo ns hi) (hlo : lo' ≤ lo) (hhi : hi ≤ hi') :
    Rises lo' ns hi' := by
  refine ⟨h.sorted, hlo.trans (h.le.trans hhi), fun n hn => ?_⟩
  obtain ⟨hleft, hright⟩ := h.within n hn
  exact ⟨hlo.trans hleft, hright.trans hhi⟩

theorem append (hm : Rises lo ms mid) (hn : Rises mid ns hi) : Rises lo (ms ++ ns) hi := by
  refine ⟨List.pairwise_append.mpr ⟨hm.sorted, hn.sorted, fun m hmem n hnmem => ?_⟩,
    hm.le.trans hn.le, List.forall_mem_append.mpr ⟨?_, ?_⟩⟩
  · exact (hm.within m hmem).2.trans (hn.within n hnmem).1
  · exact (hm.mono (Nat.le_refl lo) hn.le).within
  · exact (hn.mono hm.le (Nat.le_refl hi)).within

end Rises

/-! ### Literals that are not closed -/

/-- There is an unknown escape sequence in what stands behind an opening quote. -/
inductive HasUnknownEscape : List Char → Prop where
  | here {c : Char} {rest : List Char} (hc : Piece.unescape? c = none) :
      HasUnknownEscape ('\\' :: c :: rest)
  | behind {c : Char} {rest : List Char} (h : HasUnknownEscape rest) :
      HasUnknownEscape ('\\' :: c :: rest)
  | char {c : Char} {rest : List Char} (hc : c ≠ '\\') (h : HasUnknownEscape rest) :
      HasUnknownEscape (c :: rest)

/-- The text begins with a quote, and an unknown escape sequence is behind it. -/
def IsMisspelled (text : List Char) : Prop :=
  ∃ quote body, text = quote :: body ∧ (quote = '"' ∨ quote = '\'') ∧ HasUnknownEscape body

/-- The token is a literal that is not closed, with an unknown escape sequence in it. -/
def Token.BreaksOff (t : Token) : Prop := t.kind = .invalid ∧ IsMisspelled t.text.toList

def LexicalError.IsUnknownEscape (e : LexicalError) : Prop :=
  ∃ c literal, e = .unknownEscape c literal

def LexicalError.IsUnterminated (e : LexicalError) : Prop :=
  e = .unterminatedString ∨ e = .unterminatedChar

/-- The first problem is an unknown escape sequence in a token; the second, that the same token is
not closed, is placed in front of it. -/
structure Inverted (t : Token) (first second : Position × LexicalError) : Prop where
  escape : first.2.IsUnknownEscape
  after : t.position.offset < first.1.offset
  inside : first.1.offset ≤ t.position.offset + t.text.utf8ByteSize
  unterminated : second.2.IsUnterminated
  start : second.1 = t.position

theorem HasUnknownEscape.two_le {body : List Char} (h : HasUnknownEscape body) :
    2 ≤ body.length := by
  induction h with
  | here => simp
  | behind => simp
  | char _ _ ih => exact Nat.le_succ_of_le ih

theorem hasUnknownEscape_backslash {c : Char} {rest : List Char} :
    HasUnknownEscape ('\\' :: c :: rest) ↔ Piece.unescape? c = none ∨ HasUnknownEscape rest := by
  constructor
  · intro h
    cases h with
    | here hc => exact .inl hc
    | behind h => exact .inr h
    | char hc _ => exact absurd rfl hc
  · rintro (hc | h)
    · exact .here hc
    · exact .behind h

theorem hasUnknownEscape_cons {c : Char} {rest : List Char} (hc : c ≠ '\\') :
    HasUnknownEscape (c :: rest) ↔ HasUnknownEscape rest := by
  constructor
  · intro h
    cases h with
    | here => exact absurd rfl hc
    | behind => exact absurd rfl hc
    | char _ h => exact h
  · exact .char hc

namespace Piece

/-- Unknown escape sequences, from the left to the right, within the first characters. -/
structure Escapes (lo : Nat) (problems : List (Nat × LexicalError)) (hi : Nat) : Prop where
  rises : Rises lo (problems.map (·.1)) hi
  unknown : ∀ e ∈ problems, e.2.IsUnknownEscape

theorem Escapes.append {lo mid hi : Nat} {first later : List (Nat × LexicalError)}
    (h : Escapes lo first mid) (hlater : Escapes mid later hi) :
    Escapes lo (first ++ later) hi := by
  refine ⟨?_, List.forall_mem_append.mpr ⟨h.unknown, hlater.unknown⟩⟩
  rw [List.map_append]
  exact h.rises.append hlater.rises

theorem escapes_escapeProblem {offset lo hi : Nat} {c : Char} {literal : QuotedLiteral}
    (hlo : lo ≤ offset) (hhi : offset ≤ hi) : Escapes lo (escapeProblem offset c literal) hi := by
  unfold escapeProblem
  split
  · exact ⟨.nil (hlo.trans hhi), by simp⟩
  · exact ⟨.cons hlo (.nil hhi), by simp [LexicalError.IsUnknownEscape]⟩

theorem escapeProblem_ne_nil {offset : Nat} {c : Char} {literal : QuotedLiteral} :
    escapeProblem offset c literal ≠ [] ↔ unescape? c = none := by
  unfold escapeProblem
  split <;> simp_all

/-- The problems of a piece: at most one, with its beginning; or unknown escape sequences, and
behind them that the literal is not closed. -/
inductive Reports (text : List Char) : Option TokenKind → List (Nat × LexicalError) → Prop where
  | clean {kind : Option TokenKind} (h : ¬(kind = some .invalid ∧ IsMisspelled text)) :
      Reports text kind []
  | start {kind : Option TokenKind} {e : LexicalError}
      (h : ¬(kind = some .invalid ∧ IsMisspelled text)) : Reports text kind [(0, e)]
  | closed {kind : Option TokenKind} {escapes : List (Nat × LexicalError)}
      (hkind : kind ≠ some .invalid) (h : Escapes 1 escapes text.length) :
      Reports text kind escapes
  | broken {escapes : List (Nat × LexicalError)} {e : LexicalError} (htext : IsMisspelled text)
      (hne : escapes ≠ []) (h : Escapes 1 escapes text.length) (he : e.IsUnterminated) :
      Reports text (some .invalid) (escapes ++ [(0, e)])

theorem stringBody_spec (offset : Nat) (rest : List Char) :
    Escapes offset (stringBody offset rest).problems (stringBody offset rest).stop ∧
    (stringBody offset rest).stop ≤ offset + rest.length ∧
    ((stringBody offset rest).closed = false →
      (stringBody offset rest).stop = offset + rest.length ∧
      ((stringBody offset rest).problems ≠ [] ↔ HasUnknownEscape rest)) := by
  fun_induction stringBody offset rest with
  | case1 offset =>
      refine ⟨⟨.nil (Nat.le_refl _), by simp⟩, Nat.le_refl _, fun _ => ⟨rfl, ?_⟩⟩
      exact iff_of_false (fun h => h rfl) fun h => absurd h.two_le (by simp)
  | case2 offset rest =>
      refine ⟨⟨.nil (Nat.le_succ _), by simp⟩, ?_, fun h => nomatch h⟩
      simp only [List.length_cons]
      omega
  | case3 offset =>
      refine ⟨⟨.nil (Nat.le_succ _), by simp⟩, Nat.le_refl _, fun _ => ⟨rfl, ?_⟩⟩
      exact iff_of_false (fun h => h rfl) fun h => absurd h.two_le (by simp)
  | case4 offset c rest body ih =>
      obtain ⟨hescapes, hstop, hopen⟩ := ih
      have hfirst : Escapes offset (escapeProblem (offset + 1) c .string) (offset + 2) :=
        escapes_escapeProblem (Nat.le_succ _) (Nat.le_succ _)
      have hlength : offset + 2 + rest.length = offset + ('\\' :: c :: rest).length := by
        simp only [List.length_cons]
        omega
      refine ⟨hfirst.append hescapes, hstop.trans_eq hlength, fun hclosed => ⟨?_, ?_⟩⟩
      · exact (hopen hclosed).1.trans hlength
      · rw [hasUnknownEscape_backslash, ← escapeProblem_ne_nil, ← (hopen hclosed).2]
        simp only [ne_eq, List.append_eq_nil_iff, not_and_or]
        exact Iff.rfl
  | case5 offset c rest hquote hlast hescape body ih =>
      obtain ⟨hescapes, hstop, hopen⟩ := ih
      have hc : c ≠ '\\' := by
        rintro rfl
        cases rest with
        | nil => exact hlast rfl rfl
        | cons d rest => exact hescape d rest rfl rfl
      have hlength : offset + 1 + rest.length = offset + (c :: rest).length := by
        simp only [List.length_cons]
        omega
      refine ⟨⟨hescapes.rises.mono (Nat.le_succ _) (Nat.le_refl _), hescapes.unknown⟩,
        hstop.trans_eq hlength, fun hclosed => ⟨?_, ?_⟩⟩
      · exact (hopen hclosed).1.trans hlength
      · rw [hasUnknownEscape_cons hc]
        exact (hopen hclosed).2

theorem not_isMisspelled {quote : Char} {body : List Char} (h : ¬HasUnknownEscape body) :
    ¬IsMisspelled (quote :: body) := by
  rintro ⟨_, _, heq, -, hbody⟩
  cases heq
  exact h hbody

/-- What is read of a literal that is not closed. -/
theorem reports_unclosed {quote : Char} {body : List Char} {problems : List (Nat × LexicalError)}
    {e : LexicalError} (hquote : quote = '"' ∨ quote = '\'') (he : e.IsUnterminated)
    (hproblems : Escapes 1 problems (quote :: body).length)
    (hbody : problems ≠ [] ↔ HasUnknownEscape body) :
    Reports (quote :: body) (some .invalid) (problems ++ [(0, e)]) := by
  by_cases hescape : HasUnknownEscape body
  · exact .broken ⟨quote, body, rfl, hquote, hescape⟩ (hbody.mpr hescape) hproblems he
  · rw [Classical.not_not.mp fun hne => hescape (hbody.mp hne)]
    exact .start fun h => not_isMisspelled hescape h.2

theorem reports_string (rest : List Char) :
    Reports ('"' :: rest.take (string rest).extra) (string rest).kind (string rest).problems := by
  obtain ⟨hescapes, hstop, hopen⟩ := stringBody_spec 1 rest
  have hstart := hescapes.rises.le
  have hlength : ('"' :: rest.take ((stringBody 1 rest).stop - 1)).length =
      (stringBody 1 rest).stop := by
    rw [List.length_cons, List.length_take_of_le (by omega)]
    omega
  rw [← hlength] at hescapes
  cases hclosed : (stringBody 1 rest).closed with
  | true =>
      simp only [string, hclosed, if_true]
      exact .closed (by simp) hescapes
  | false =>
      obtain ⟨hend, hbody⟩ := hopen hclosed
      have htake : rest.take ((stringBody 1 rest).stop - 1) = rest :=
        List.take_of_length_le (by omega)
      simp only [string, hclosed, Bool.false_eq_true, if_false, htake] at hescapes ⊢
      exact reports_unclosed (.inl rfl) (.inl rfl) hescapes hbody

theorem reports_closeChar {taken : Nat} {value : Char} {problems : List (Nat × LexicalError)}
    (body : List Char) {rest : List Char} (htaken : taken = body.length + 1)
    (hproblems : Escapes 1 problems (body.length + 1))
    (hbody : problems ≠ [] ↔ HasUnknownEscape body) :
    Reports ('\'' :: (body ++ rest).take (closeChar taken value problems rest).extra)
      (closeChar taken value problems rest).kind
      (closeChar taken value problems rest).problems := by
  subst htaken
  unfold closeChar
  split
  · next rest =>
      refine .closed (by simp) ⟨hproblems.rises.mono (Nat.le_refl _) ?_, hproblems.unknown⟩
      simp
  · have htake : (body ++ rest).take (body.length + 1 - 1) = body := by simp
    dsimp only
    rw [htake]
    exact reports_unclosed (.inr rfl) (.inr rfl) hproblems hbody

theorem reports_malformed {quote : Char} {rest : List Char} {extra : Nat} (e : LexicalError)
    (h : ¬HasUnknownEscape (rest.take extra)) :
    Reports (quote :: rest.take (malformed extra e).extra) (malformed extra e).kind
      (malformed extra e).problems :=
  .start fun hmisspelled => not_isMisspelled h hmisspelled.2

theorem reports_charLiteral (rest : List Char) :
    Reports ('\'' :: rest.take (charLiteral rest).extra) (charLiteral rest).kind
      (charLiteral rest).problems := by
  have hshort {body : List Char} (hlength : body.length ≤ 1) : ¬HasUnknownEscape body :=
    fun h => absurd (h.two_le.trans hlength) (by decide)
  unfold charLiteral
  split
  · exact reports_malformed _ (hshort (by simp))
  · exact reports_malformed _ (hshort (by simp))
  · exact reports_malformed _ (hshort (by simp))
  · exact reports_malformed _ (hshort (by simp))
  · next c rest =>
      refine reports_closeChar ['\\', c] rfl (escapes_escapeProblem ?_ ?_) ?_
      · exact Nat.le_succ 1
      · exact Nat.le_succ 2
      · rw [escapeProblem_ne_nil, hasUnknownEscape_backslash]
        simp [hshort]
  · next c rest _ _ _ _ =>
      refine reports_closeChar [c] rfl ⟨.nil (Nat.le_succ 1), by simp⟩ ?_
      exact iff_of_false (fun h => h rfl) (hshort (by simp))

theorem reports_read (c : Char) (rest : List Char) :
    Reports (c :: rest.take (read c rest).extra) (read c rest).kind (read c rest).problems := by
  have hother (hstring : c ≠ '"') (hchar : c ≠ '\'') (body : List Char) :
      ¬IsMisspelled (c :: body) := by
    rintro ⟨_, _, heq, rfl | rfl, -⟩
    · exact hstring (List.cons.inj heq).1
    · exact hchar (List.cons.inj heq).1
  rcases read_sorts c rest with ⟨hkind, hproblems, -⟩ | ⟨body, rfl, rfl, hbody, hread⟩ |
    ⟨rfl, hread⟩ | ⟨rfl, hread⟩ | ⟨hstring, hchar, hplain⟩
  · rw [hkind, hproblems]
    exact .clean fun h => nomatch h.1
  · rw [hread, blockComment_of_unclosed hbody]
    exact .start fun h => nomatch h.1
  · rw [hread]
    exact reports_string rest
  · rw [hread]
    exact reports_charLiteral rest
  · generalize read c rest = piece at hplain ⊢
    cases hplain with
    | token => exact .clean fun h => hother hstring hchar _ h.2
    | malformed => exact .start fun h => hother hstring hchar _ h.2

end Piece

/-! ### Positions -/

namespace Position

variable {p : Position} {text : List Char} {m n : Nat}

theorem offset_after (p : Position) (text : List Char) :
    (p.after text).offset = p.offset + (String.ofList text).utf8ByteSize := by
  induction text generalizing p with
  | nil => rfl
  | cons c text ih =>
      have hadvance : (p.advance c).offset = p.offset + c.utf8Size := by
        unfold advance
        split <;> rfl
      have hsize : (String.ofList (c :: text)).utf8ByteSize =
          c.utf8Size + (String.ofList text).utf8ByteSize := by
        rw [← List.singleton_append, String.ofList_append]
        simp
      rw [after_cons, ih, hadvance, hsize, Nat.add_assoc]

theorem after_take_add (p : Position) (text : List Char) (m k : Nat) :
    p.after (text.take (m + k)) = (p.after (text.take m)).after ((text.drop m).take k) := by
  rw [← after_append, List.take_add]

theorem offset_after_take_le (h : m ≤ n) :
    (p.after (text.take m)).offset ≤ (p.after (text.take n)).offset := by
  obtain ⟨k, rfl⟩ := Nat.exists_eq_add_of_le h
  rw [after_take_add, offset_after (p.after (text.take m))]
  exact Nat.le_add_right _ _

/-- Every character takes bytes. -/
theorem offset_lt_after_take (hn : 0 < n) (hne : text ≠ []) :
    p.offset < (p.after (text.take n)).offset := by
  rw [offset_after]
  refine Nat.lt_add_of_pos_right (Nat.pos_of_ne_zero fun hzero => ?_)
  have htake : text.take n = [] := by simpa using hzero
  rcases List.take_eq_nil_iff.mp htake with rfl | hnil
  · exact Nat.lt_irrefl 0 hn
  · exact hne hnil

end Position

namespace Scan

/-- The problems of a scan are in order, but for those of literals that are not closed. -/
structure Sequenced (s : Scan) : Prop where
  ordered : s.problems.Pairwise fun e e' => e.1.offset ≤ e'.1.offset ∨
    ∃ t ∈ s.tokens, t.BreaksOff ∧ Inverted t e e'
  inverted : ∀ t ∈ s.tokens, t.BreaksOff → ∃ e e', [e, e'].Sublist s.problems ∧ Inverted t e e'

theorem Sequenced.append {s later : Scan} (h : s.Sequenced) (hlater : later.Sequenced)
    (hle : ∀ e ∈ s.problems, ∀ e' ∈ later.problems, e.1.offset ≤ e'.1.offset) :
    Sequenced ⟨s.tokens ++ later.tokens, s.problems ++ later.problems⟩ := by
  refine ⟨List.pairwise_append.mpr ⟨h.ordered.imp ?_, hlater.ordered.imp ?_, ?_⟩, ?_⟩
  · exact fun hpair => hpair.imp_right fun ⟨t, ht, hbreak⟩ => ⟨t, List.mem_append_left _ ht, hbreak⟩
  · exact fun hpair => hpair.imp_right fun ⟨t, ht, hbreak⟩ => ⟨t, List.mem_append_right _ ht, hbreak⟩
  · exact fun e he e' he' => .inl (hle e he e' he')
  · intro t ht hbreak
    rcases List.mem_append.mp ht with ht | ht
    · obtain ⟨e, e', hsub, hinverted⟩ := h.inverted t ht hbreak
      exact ⟨e, e', hsub.trans (List.sublist_append_left _ _), hinverted⟩
    · obtain ⟨e, e', hsub, hinverted⟩ := hlater.inverted t ht hbreak
      exact ⟨e, e', hsub.trans (List.sublist_append_right _ _), hinverted⟩

/-- The scan of one piece. -/
def ofPiece (p : Position) (text : List Char) (kind : Option TokenKind)
    (problems : List (Nat × LexicalError)) : Scan where
  tokens := (kind.map fun kind => ⟨kind, String.ofList text, p⟩).toList
  problems := problems.map fun (n, e) => (p.after (text.take n), e)

section

variable {p : Position} {text : List Char} {kind : Option TokenKind}
  {problems escapes : List (Nat × LexicalError)}

theorem breaksOff_of_mem {t : Token} (ht : t ∈ (ofPiece p text kind problems).tokens)
    (hbreak : t.BreaksOff) : kind = some .invalid ∧ IsMisspelled text := by
  obtain ⟨k, hk, rfl⟩ := Option.map_eq_some_iff.mp (Option.mem_toList.mp ht)
  obtain ⟨rfl, hmisspelled⟩ := hbreak
  rw [String.toList_ofList] at hmisspelled
  exact ⟨hk, hmisspelled⟩

theorem sorted_of_escapes {hi : Nat} (h : Piece.Escapes 1 escapes hi) :
    (ofPiece p text kind escapes).problems.Pairwise fun e e' => e.1.offset ≤ e'.1.offset :=
  List.pairwise_map.mpr ((List.pairwise_map.mp h.rises.sorted).imp Position.offset_after_take_le)

/-- An escape sequence stands behind the quote of its literal. -/
theorem inverted_of_escapes {e : Nat × LexicalError} {problem : LexicalError}
    (h : Piece.Escapes 1 escapes text.length) (he : e ∈ escapes)
    (hproblem : problem.IsUnterminated) :
    Inverted ⟨.invalid, String.ofList text, p⟩ (p.after (text.take e.1), e.2)
      (p.after (text.take 0), problem) := by
  obtain ⟨hone, hlength⟩ := h.rises.within e.1 (List.mem_map_of_mem he)
  have htext : text ≠ [] := List.ne_nil_of_length_pos (hone.trans hlength)
  refine ⟨h.unknown e he, Position.offset_lt_after_take hone htext, ?_, hproblem, rfl⟩
  calc (p.after (text.take e.1)).offset
      ≤ (p.after (text.take text.length)).offset := Position.offset_after_take_le hlength
    _ = p.offset + (String.ofList text).utf8ByteSize := by
      rw [List.take_length, Position.offset_after]

theorem sequenced_ofPiece (h : Piece.Reports text kind problems) :
    (ofPiece p text kind problems).Sequenced := by
  cases h with
  | clean h => exact ⟨.nil, fun t ht hbreak => absurd (breaksOff_of_mem ht hbreak) h⟩
  | start h =>
      exact ⟨List.pairwise_singleton _ _, fun t ht hbreak => absurd (breaksOff_of_mem ht hbreak) h⟩
  | closed hkind h =>
      refine ⟨(sorted_of_escapes h).imp .inl, fun t ht hbreak => ?_⟩
      exact absurd (breaksOff_of_mem ht hbreak).1 hkind
  | @broken escapes e htext hne h he =>
      have hbreak : Token.BreaksOff ⟨.invalid, String.ofList text, p⟩ :=
        ⟨rfl, by rwa [String.toList_ofList]⟩
      have hproblems : (ofPiece p text (some .invalid) (escapes ++ [(0, e)])).problems =
          (ofPiece p text (some .invalid) escapes).problems ++ [(p.after (text.take 0), e)] :=
        List.map_append
      constructor
      · rw [hproblems]
        refine List.pairwise_append.mpr ⟨(sorted_of_escapes h).imp .inl,
          List.pairwise_singleton _ _, fun e₁ he₁ e₂ he₂ => .inr ⟨_, .head _, hbreak, ?_⟩⟩
        obtain ⟨escape, hescape, rfl⟩ := List.mem_map.mp he₁
        obtain rfl := List.mem_singleton.mp he₂
        exact inverted_of_escapes h hescape he
      · intro t ht _
        obtain rfl := List.mem_singleton.mp ht
        obtain ⟨escape, hescape⟩ := List.exists_mem_of_ne_nil escapes hne
        refine ⟨_, _, ?_, inverted_of_escapes h hescape he⟩
        rw [hproblems]
        refine List.Sublist.append (List.singleton_sublist.mpr ?_) (.refl [_])
        exact List.mem_map_of_mem hescape

end

/-- The problems of a piece are placed from its beginning on. -/
theorem offset_le_of_mem_ofPiece {p : Position} {text : List Char} {kind : Option TokenKind}
    {problems : List (Nat × LexicalError)} {e : Position × LexicalError}
    (he : e ∈ (ofPiece p text kind problems).problems) :
    p.offset ≤ e.1.offset ∧ e.1.offset ≤ (p.after text).offset := by
  obtain ⟨⟨n, problem⟩, -, rfl⟩ := List.mem_map.mp he
  constructor
  · exact Position.offset_after_take_le (Nat.zero_le n)
  · calc (p.after (text.take n)).offset
        ≤ (p.after (text.take (max n text.length))).offset :=
          Position.offset_after_take_le (Nat.le_max_left n text.length)
      _ = (p.after text).offset := by rw [List.take_of_length_le (Nat.le_max_right n text.length)]

theorem sequenced_textFrom (before text : List Char) :
    (textFrom (.counted before) text).Sequenced ∧
      ∀ e ∈ (textFrom (.counted before) text).problems,
        (Position.counted before).offset ≤ e.1.offset := by
  apply textFrom_induct (P := fun before _ s => s.Sequenced ∧
    ∀ e ∈ s.problems, (Position.counted before).offset ≤ e.1.offset)
  · intro before
    refine ⟨⟨.nil, fun t ht hbreak => ?_⟩, by simp⟩
    obtain rfl := List.mem_singleton.mp ht
    cases hbreak.1
  · rintro before c rest later ⟨hsequenced, hlater⟩
    let first := ofPiece (.counted before) (c :: rest.take (Piece.read c rest).extra)
      (Piece.read c rest).kind (Piece.read c rest).problems
    have hfirst : first.Sequenced := sequenced_ofPiece (Piece.reports_read c rest)
    have hplaced : ∀ e ∈ first.problems, _ := fun e he => offset_le_of_mem_ofPiece he
    rw [← Position.after_counted] at hlater
    refine ⟨hfirst.append hsequenced fun e he e' he' => ?_, fun e he => ?_⟩
    · exact (hplaced e he).2.trans (hlater e' he')
    · rcases List.mem_append.mp he with he | he
      · exact (hplaced e he).1
      · refine Nat.le_trans ?_ (hlater e he)
        rw [Position.offset_after]
        exact Nat.le_add_right _ _

/-- The problems of a scan are in order exactly if no literal of it that is not closed has an unknown
escape sequence in it. -/
theorem Sequenced.sorted_iff {s : Scan} (h : s.Sequenced) :
    (s.problems.Pairwise fun e e' => e.1.offset ≤ e'.1.offset) ↔ ∀ t ∈ s.tokens, ¬t.BreaksOff := by
  constructor
  · intro hsorted t ht hbreak
    obtain ⟨e, e', hsub, hinverted⟩ := h.inverted t ht hbreak
    have hle : e.1.offset ≤ e'.1.offset := by simpa using hsorted.sublist hsub
    rw [hinverted.start] at hle
    exact absurd hinverted.after (Nat.not_lt.mpr hle)
  · intro hnone
    refine h.ordered.imp fun hpair => hpair.resolve_right ?_
    rintro ⟨t, ht, hbreak, -⟩
    exact hnone t ht hbreak

theorem sequenced_source (source : String) : (Scan.source source).Sequenced :=
  (sequenced_textFrom [] source.toList).1

end Scan

end WireSpec
