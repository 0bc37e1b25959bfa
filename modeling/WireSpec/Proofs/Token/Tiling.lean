import WireSpec.Proofs.Token.Gaps
/-!
# Tokens tile a text

Scanning cuts a text into tokens with gaps between them, and loses nothing of it: the tokens stand
in the text where their positions say, in order and without overlap, and what is left between them
are gaps.  Only the last gap may end in a comment that is not closed.  A token that can be used as a
name has this name as its text.
-/

namespace WireSpec

/-! ### Counted positions -/

/-- The position behind a text, counted from its characters. -/
def Position.counted (before : List Char) : Position where
  line := 1 + before.count '\n'
  column := 1 + (before.reverse.takeWhile (· != '\n')).length
  offset := (String.ofList before).utf8ByteSize

namespace Position

theorem advance_counted (before : List Char) (c : Char) :
    (counted before).advance c = counted (before ++ [c]) := by
  unfold advance
  split
  · rename_i hbreak
    subst hbreak
    simp [counted, String.ofList_append, Nat.add_assoc]
    decide
  · rename_i hother
    simp [counted, String.ofList_append, hother, Nat.add_assoc]

theorem after_counted (before text : List Char) :
    (counted before).after text = counted (before ++ text) := by
  induction text generalizing before with
  | nil => simp
  | cons c text ih => rw [after_cons, advance_counted, ih, List.append_assoc, List.singleton_append]

theorem offset_counted_append (before text : List Char) :
    (counted (before ++ text)).offset =
      (counted before).offset + (String.ofList text).utf8ByteSize := by
  simp [counted, String.ofList_append]

end Position

/-! ### Pieces -/

namespace Piece

/-- The piece is a token; if it is an invalid one, there is a problem with its beginning. -/
def IsToken (piece : Piece) : Prop :=
  ∃ kind, piece.kind = some kind ∧ kind ≠ .endOfInput ∧
    (kind = .invalid → ∃ e, (0, e) ∈ piece.problems)

/-- The piece is a token of one kind, or text that should have been one. -/
inductive IsPlain : Piece → Prop where
  | token {extra : Nat} {kind : TokenKind} (hend : kind ≠ .endOfInput) (hvalid : kind ≠ .invalid) :
      IsPlain (token extra kind)
  | malformed (extra : Nat) (e : LexicalError) : IsPlain (malformed extra e)

theorem IsPlain.isToken {piece : Piece} (h : piece.IsPlain) : piece.IsToken := by
  cases h with
  | @token _ kind hend hvalid => exact ⟨kind, rfl, hend, fun h => absurd h hvalid⟩
  | malformed _ e => exact ⟨.invalid, rfl, by simp, fun _ => ⟨e, by simp [Piece.malformed]⟩⟩

theorem isPlain_word (c : Char) (rest : List Char) : (word c rest).IsPlain := by
  unfold word
  dsimp only
  split <;> exact .token (by simp) (by simp)

theorem isPlain_basedInteger (letter : Char) (base : Nat) (rest : List Char) :
    (basedInteger letter base rest).IsPlain := by
  unfold basedInteger
  dsimp only
  split
  · exact .malformed _ _
  · split
    · exact .token (by simp) (by simp)
    · exact .malformed _ _

theorem isPlain_decimalNumber (c : Char) (rest : List Char) : (decimalNumber c rest).IsPlain := by
  unfold decimalNumber
  dsimp only
  split
  · exact .token (by simp) (by simp)
  · split
    · split
      · exact .token (by simp) (by simp)
      · exact .malformed _ _
    · exact .token (by simp) (by simp)

theorem isPlain_number (c : Char) (rest : List Char) : (number c rest).IsPlain := by
  unfold number
  split
  · split
    · exact isPlain_basedInteger _ _ _
    · exact isPlain_decimalNumber _ _
  · exact isPlain_decimalNumber _ _

theorem isPlain_symbol (c : Char) (rest : List Char) : (symbol c rest).IsPlain := by
  unfold symbol
  split
  · exact .token (by simp) (by simp)
  · split
    · exact .token (by simp) (by simp)
    · exact .malformed _ _

theorem isToken_string (rest : List Char) : (string rest).IsToken := by
  unfold string
  dsimp only
  split
  · exact ⟨_, rfl, by simp, by simp⟩
  · exact ⟨_, rfl, by simp, fun _ => ⟨.unterminatedString, by simp⟩⟩

theorem isToken_closeChar (taken : Nat) (value : Char) (problems : List (Nat × LexicalError))
    (rest : List Char) : (closeChar taken value problems rest).IsToken := by
  unfold closeChar
  split
  · exact ⟨_, rfl, by simp, by simp⟩
  · exact ⟨_, rfl, by simp, fun _ => ⟨.unterminatedChar, by simp⟩⟩

theorem isToken_charLiteral (rest : List Char) : (charLiteral rest).IsToken := by
  unfold charLiteral
  split
  · exact (IsPlain.malformed _ _).isToken
  · exact (IsPlain.malformed _ _).isToken
  · exact (IsPlain.malformed _ _).isToken
  · exact (IsPlain.malformed _ _).isToken
  · exact isToken_closeChar _ _ _ _
  · exact isToken_closeChar _ _ _ _

/-- The piece is a gap, or the beginning of one. -/
def IsGap (piece : Piece) (c : Char) (rest : List Char) : Prop :=
  piece.kind = none ∧ piece.problems = [] ∧ ∀ more behind,
    rest.drop piece.extra = more ++ behind → Gap more behind →
      Gap (c :: (rest.take piece.extra ++ more)) behind

theorem isGap_blank {c : Char} (hc : Text.isBlank c = true) (rest : List Char) :
    (gap 0).IsGap c rest :=
  ⟨rfl, rfl, fun _ _ _ h => .blank hc h⟩

theorem isGap_lineComment (rest : List Char) : (lineComment rest).IsGap '/' ('/' :: rest) := by
  obtain ⟨line, tail, rfl, hline, htail⟩ : ∃ line tail, rest = line ++ tail ∧ '\n' ∉ line ∧
      ∀ c ∈ tail.head?, c = '\n' := by
    refine ⟨rest.takeWhile (· != '\n'), rest.dropWhile (· != '\n'),
      List.takeWhile_append_dropWhile.symm, ?_, ?_⟩
    · intro hmem
      have hall := List.all_eq_true.mp List.all_takeWhile _ hmem
      simp at hall
    · intro c hc
      have hhead := List.head?_dropWhile_not (· != '\n') rest
      rw [Option.mem_def.mp hc] at hhead
      simpa using hhead
  rw [lineComment_append hline htail]
  refine ⟨rfl, rfl, fun more behind hdrop h => ?_⟩
  simp only [gap, Nat.add_comm 1, List.drop_succ_cons, List.take_succ_cons, List.drop_left,
    List.take_left] at hdrop ⊢
  exact .line hline (hdrop ▸ htail) h

theorem isGap_blockComment {rest : List Char} (h : ¬Unclosed rest) :
    (blockComment rest).IsGap '/' ('*' :: rest) := by
  obtain ⟨body, tail, hbody, rfl⟩ := Classical.not_not.mp h
  rw [blockComment_append hbody]
  refine ⟨rfl, rfl, fun more behind hdrop h => ?_⟩
  have happend : body ++ '*' :: '/' :: tail = body ++ ['*', '/'] ++ tail := by simp
  have hlength : body.length + 2 = (body ++ ['*', '/']).length := by simp
  simp only [gap, Nat.add_comm 1, List.drop_succ_cons, List.take_succ_cons, happend, hlength,
    List.drop_left, List.take_left] at hdrop ⊢
  simpa using Gap.block hbody h

theorem blockComment_of_unclosed {rest : List Char} (h : Unclosed rest) :
    blockComment rest =
      { extra := 1 + rest.length, kind := none, problems := [(0, .unclosedComment)] } := by
  unfold blockComment
  rw [commentLength?_eq_none.mpr h]

/-- A piece is a gap, a comment that is not closed, or a token; only a quote begins a literal. -/
theorem read_sorts (c : Char) (rest : List Char) :
    (read c rest).IsGap c rest ∨
    (∃ body, c = '/' ∧ rest = '*' :: body ∧ Unclosed body ∧ read c rest = blockComment body) ∨
    (c = '"' ∧ read c rest = string rest) ∨ (c = '\'' ∧ read c rest = charLiteral rest) ∨
    (c ≠ '"' ∧ c ≠ '\'' ∧ (read c rest).IsPlain) := by
  by_cases hstring : c = '"'
  · subst hstring
    exact .inr (.inr (.inl ⟨rfl, rfl⟩))
  by_cases hchar : c = '\''
  · subst hchar
    exact .inr (.inr (.inr (.inl ⟨rfl, rfl⟩)))
  unfold read
  split
  · rename_i hc
    exact .inl (isGap_blank hc rest)
  · split
    · exact .inr (.inr (.inr (.inr ⟨hstring, hchar, isPlain_number c rest⟩)))
    · split
      · exact .inr (.inr (.inr (.inr ⟨hstring, hchar, isPlain_word c rest⟩)))
      · split
        · rename_i behind _ _ _
          exact .inl (isGap_lineComment behind)
        · rename_i behind _ _ _
          by_cases h : Unclosed behind
          · exact .inr (.inl ⟨behind, rfl, rfl, h, rfl⟩)
          · exact .inl (isGap_blockComment h)
        · exact absurd rfl hstring
        · exact absurd rfl hchar
        · exact .inr (.inr (.inr (.inr ⟨hstring, hchar, isPlain_symbol c rest⟩)))

/-- A piece is a token, a gap, or a comment that is not closed. -/
theorem read_cases (c : Char) (rest : List Char) :
    (read c rest).IsToken ∨ (read c rest).IsGap c rest ∨
      ∃ body, c = '/' ∧ rest = '*' :: body ∧ Unclosed body ∧ read c rest = blockComment body := by
  rcases read_sorts c rest with hgap | hunclosed | ⟨-, hread⟩ | ⟨-, hread⟩ | ⟨-, -, hplain⟩
  · exact .inr (.inl hgap)
  · exact .inr (.inr hunclosed)
  · exact .inl (hread ▸ isToken_string rest)
  · exact .inl (hread ▸ isToken_charLiteral rest)
  · exact .inl hplain.isToken

end Piece

/-! ### Names -/

theorem Keyword.word_of_ofWord? {text : String} {k : Keyword} (h : ofWord? text = some k) :
    k.word = text := by
  unfold ofWord? at h
  simpa using List.find?_some h

namespace Piece

/-- The piece is no token that can be used as a name. -/
def Nameless (piece : Piece) : Prop := ∀ kind, piece.kind = some kind → kind.name? = none

theorem nameless_gap (extra : Nat) : (gap extra).Nameless := by
  rintro _ ⟨⟩

theorem nameless_token (extra : Nat) {kind : TokenKind} (h : kind.name? = none) :
    (token extra kind).Nameless := by
  rintro _ ⟨⟩
  exact h

theorem nameless_malformed (extra : Nat) (e : LexicalError) : (malformed extra e).Nameless := by
  rintro _ ⟨⟩
  rfl

theorem nameless_number (c : Char) (rest : List Char) : (number c rest).Nameless := by
  have hdecimal : (decimalNumber c rest).Nameless := by
    unfold decimalNumber
    dsimp only
    split
    · exact nameless_token _ rfl
    · split
      · split
        · exact nameless_token _ rfl
        · exact nameless_malformed _ _
      · exact nameless_token _ rfl
  unfold number
  split
  · split
    · unfold basedInteger
      dsimp only
      split
      · exact nameless_malformed _ _
      · split
        · exact nameless_token _ rfl
        · exact nameless_malformed _ _
    · exact hdecimal
  · exact hdecimal

theorem nameless_string (rest : List Char) : (string rest).Nameless := by
  unfold string
  dsimp only
  split <;> rintro _ ⟨⟩ <;> rfl

theorem nameless_charLiteral (rest : List Char) : (charLiteral rest).Nameless := by
  have hclose (taken : Nat) (value : Char) (problems : List (Nat × LexicalError))
      (rest : List Char) : (closeChar taken value problems rest).Nameless := by
    unfold closeChar
    split <;> rintro _ ⟨⟩ <;> rfl
  unfold charLiteral
  split
  · exact nameless_malformed _ _
  · exact nameless_malformed _ _
  · exact nameless_malformed _ _
  · exact nameless_malformed _ _
  · exact hclose _ _ _ _
  · exact hclose _ _ _ _

theorem nameless_symbol (c : Char) (rest : List Char) : (symbol c rest).Nameless := by
  unfold symbol
  split
  · exact nameless_token _ rfl
  · split
    · exact nameless_token _ rfl
    · exact nameless_malformed _ _

/-- Only words can be used as names. -/
theorem read_eq_word_or_nameless (c : Char) (rest : List Char) :
    read c rest = word c rest ∨ (read c rest).Nameless := by
  unfold read
  split
  · exact .inr (nameless_gap 0)
  · split
    · exact .inr (nameless_number c rest)
    · split
      · exact .inl rfl
      · refine .inr ?_
        split
        · exact nameless_gap _
        · unfold blockComment
          split <;> rintro _ ⟨⟩
        · exact nameless_string rest
        · exact nameless_charLiteral rest
        · exact nameless_symbol c rest

/-- The name of a word is the word itself. -/
theorem text_of_name? {c : Char} {rest : List Char} {kind : TokenKind} {name : String}
    (h : (read c rest).kind = some kind) (hname : kind.name? = some name) :
    String.ofList (c :: rest.take (read c rest).extra) = name := by
  rcases read_eq_word_or_nameless c rest with hword | hnameless
  · have hextra : rest.take (word c rest).extra = rest.takeWhile isWordChar :=
      (List.prefix_iff_eq_take.mp (List.takeWhile_prefix isWordChar)).symm
    rw [hword] at h ⊢
    rw [hextra]
    unfold word at h
    cases hkeyword : Keyword.ofWord? (String.ofList (c :: rest.takeWhile isWordChar)) with
    | none =>
        simp only [hkeyword] at h
        cases h
        exact Option.some.inj hname
    | some keyword =>
        simp only [hkeyword] at h
        cases h
        have hspelled := Keyword.word_of_ofWord? hkeyword
        cases keyword with
        | modifier w =>
            obtain rfl := Option.some.inj hname
            exact hspelled.symm
        | _ => cases hname
  · rw [hnameless kind h] at hname
    cases hname

end Piece

/-! ### The tiling -/

/-- The tokens of the text that follows `before`: each is cut out of it, with a gap in front and at
its counted position, and the last one marks the end.  An invalid token and a comment that is not
closed are among the problems that are reported. -/
inductive Tiles (reported : List (Position × LexicalError)) :
    List Char → List Char → List Token → Prop where
  | stop {before gap : List Char} (hgap : Gap gap []) :
      Tiles reported before gap [⟨.endOfInput, "", .counted (before ++ gap)⟩]
  | unclosed {before gap body : List Char} (hgap : Gap gap ('/' :: '*' :: body))
      (hbody : Unclosed body)
      (hreported : (.counted (before ++ gap), .unclosedComment) ∈ reported) :
      Tiles reported before (gap ++ '/' :: '*' :: body)
        [⟨.endOfInput, "", .counted (before ++ (gap ++ '/' :: '*' :: body))⟩]
  | token {before gap text rest : List Char} {kind : TokenKind} {tokens : List Token}
      (hgap : Gap gap (text ++ rest)) (htext : text ≠ []) (hkind : kind ≠ .endOfInput)
      (hreported : kind = .invalid → ∃ e, (.counted (before ++ gap), e) ∈ reported)
      (h : Tiles reported (before ++ gap ++ text) rest tokens) :
      Tiles reported before (gap ++ text ++ rest)
        (⟨kind, String.ofList text, .counted (before ++ gap)⟩ :: tokens)

namespace Tiles

variable {reported : List (Position × LexicalError)} {before text : List Char}
  {tokens : List Token}

/-- What is known to begin a gap can be put in front of the first one. -/
theorem prepend {first : List Char}
    (hfirst : ∀ more behind, text = more ++ behind → Gap more behind → Gap (first ++ more) behind)
    (h : Tiles reported (before ++ first) text tokens) :
    Tiles reported before (first ++ text) tokens := by
  cases h with
  | stop hgap =>
      rw [List.append_assoc]
      exact .stop (hfirst _ [] (List.append_nil _).symm hgap)
  | @unclosed _ gap body hgap hbody hreported =>
      rw [List.append_assoc] at hreported
      have htiles := Tiles.unclosed (hfirst _ _ rfl hgap) hbody hreported
      simpa using htiles
  | @token _ gap word rest kind tokens hgap hword hkind hreported h =>
      have hgap' : Gap (first ++ gap) (word ++ rest) :=
        hfirst gap (word ++ rest) (List.append_assoc gap word rest) hgap
      rw [List.append_assoc before] at hreported h ⊢
      have htiles := Tiles.token hgap' hword hkind hreported h
      rwa [List.append_assoc first, List.append_assoc first] at htiles

theorem eq_of_nil (h : Tiles reported before text tokens) (htext : text = []) :
    tokens = [⟨.endOfInput, "", .counted before⟩] := by
  cases h with
  | stop hgap => rw [htext, List.append_nil]
  | unclosed hgap hbody hreported => simp at htext
  | token hgap hword hkind hreported h => simp [hword] at htext

theorem exists_end (h : Tiles reported before text tokens) :
    ∃ front, tokens = front ++ [⟨.endOfInput, "", .counted (before ++ text)⟩] ∧
      ∀ t ∈ front, t.kind ≠ .endOfInput ∧ t.text ≠ "" := by
  induction h with
  | stop hgap => exact ⟨[], rfl, by simp⟩
  | unclosed hgap hbody hreported => exact ⟨[], rfl, by simp⟩
  | @token before gap text rest kind tokens hgap htext hkind hreported h ih =>
      obtain ⟨front, rfl, hfront⟩ := ih
      refine ⟨⟨kind, String.ofList text, .counted (before ++ gap)⟩ :: front, by simp, ?_⟩
      intro t ht
      rcases List.mem_cons.mp ht with rfl | ht
      · exact ⟨hkind, by simpa using htext⟩
      · exact hfront t ht

/-- Every token stands in the text at its position. -/
theorem exists_cut (h : Tiles reported before text tokens) :
    ∀ t ∈ tokens, ∃ front back, text = front ++ t.text.toList ++ back ∧
      t.position = .counted (before ++ front) := by
  induction h with
  | @stop before gap hgap =>
      intro t ht
      obtain rfl := List.mem_singleton.mp ht
      exact ⟨gap, [], by simp, rfl⟩
  | @unclosed before gap body hgap hbody hreported =>
      intro t ht
      obtain rfl := List.mem_singleton.mp ht
      exact ⟨gap ++ '/' :: '*' :: body, [], by simp, rfl⟩
  | @token before gap text rest kind tokens hgap htext hkind hreported h ih =>
      intro t ht
      rcases List.mem_cons.mp ht with rfl | ht
      · exact ⟨gap, rest, by simp, rfl⟩
      · obtain ⟨front, back, rfl, hposition⟩ := ih t ht
        exact ⟨gap ++ text ++ front, back, by simp, by simpa using hposition⟩

theorem offset_le (h : Tiles reported before text tokens) :
    ∀ t ∈ tokens, (Position.counted before).offset ≤ t.position.offset := by
  intro t ht
  obtain ⟨front, _, _, hposition⟩ := h.exists_cut t ht
  rw [hposition, Position.offset_counted_append]
  exact Nat.le_add_right _ _

/-- A token ends before the next one begins. -/
theorem ordered (h : Tiles reported before text tokens) :
    tokens.Pairwise fun t t' => t.position.offset < t'.position.offset ∧
      t.position.offset + t.text.utf8ByteSize ≤ t'.position.offset := by
  induction h with
  | stop hgap => exact List.pairwise_singleton _ _
  | unclosed hgap hbody hreported => exact List.pairwise_singleton _ _
  | @token before gap text rest kind tokens hgap htext hkind hreported h ih =>
      refine List.pairwise_cons.mpr ⟨fun t ht => ?_, ih⟩
      have hnext := h.offset_le t ht
      rw [Position.offset_counted_append] at hnext
      have hpos : 0 < (String.ofList text).utf8ByteSize :=
        Nat.pos_of_ne_zero fun hzero => htext (by simpa using hzero)
      exact ⟨by dsimp only; omega, hnext⟩

theorem invalid_reported (h : Tiles reported before text tokens) :
    ∀ t ∈ tokens, t.kind = .invalid → ∃ e, (t.position, e) ∈ reported := by
  induction h with
  | stop hgap => simp
  | unclosed hgap hbody hreported => simp
  | token hgap htext hkind hreported h ih => exact List.forall_mem_cons.mpr ⟨hreported, ih⟩

end Tiles

namespace Scan

/-- A scan is made piece by piece, from the last one to the first. -/
theorem textFrom_induct {P : List Char → List Char → Scan → Prop}
    (stop : ∀ before, P before [] ⟨[⟨.endOfInput, "", .counted before⟩], []⟩)
    (piece : ∀ before c rest later,
      P (before ++ c :: rest.take (Piece.read c rest).extra)
        (rest.drop (Piece.read c rest).extra) later →
      P before (c :: rest) (withPiece (.counted before) (Piece.read c rest)
        (c :: rest.take (Piece.read c rest).extra) later))
    (before text : List Char) : P before text (textFrom (.counted before) text) := by
  match text with
  | [] =>
      rw [textFrom_nil]
      exact stop before
  | c :: rest =>
      rw [textFrom_cons, Position.after_counted]
      exact piece before c rest _ (textFrom_induct stop piece _ _)
termination_by text.length
decreasing_by simp only [List.length_drop, List.length_cons]; omega

/-- One more piece in front of a tiling. -/
theorem tiles_withPiece {reported : List (Position × LexicalError)} {before : List Char} {c : Char}
    {rest : List Char} {later : Scan}
    (hlater : Tiles reported (before ++ c :: rest.take (Piece.read c rest).extra)
      (rest.drop (Piece.read c rest).extra) later.tokens)
    (hfirst : ∀ e, (0, e) ∈ (Piece.read c rest).problems → (.counted before, e) ∈ reported) :
    Tiles reported before (c :: rest) (withPiece (.counted before) (Piece.read c rest)
      (c :: rest.take (Piece.read c rest).extra) later).tokens := by
  have hsplit := List.take_append_drop (Piece.read c rest).extra rest
  rcases Piece.read_cases c rest with ⟨kind, hkind, hend, hinvalid⟩ | ⟨hkind, _, hgap⟩ |
    ⟨body, rfl, rfl, hbody, hread⟩
  · have hnone : Gap [] (c :: rest.take (Piece.read c rest).extra ++
        rest.drop (Piece.read c rest).extra) := .nil
    have htiles := Tiles.token hnone (List.cons_ne_nil c _) hend
      (fun h => (hinvalid h).imp fun e he => by simpa using hfirst e he) (by simpa using hlater)
    simpa [withPiece, hkind, hsplit] using htiles
  · have htiles := Tiles.prepend hgap hlater
    simpa [withPiece, hkind, hsplit] using htiles
  · rw [Piece.blockComment_of_unclosed hbody] at hread
    have hreported : (.counted (before ++ []), .unclosedComment) ∈ reported := by
      simpa using hfirst .unclosedComment (by simp [hread])
    have hend := hlater.eq_of_nil (List.drop_of_length_le (by simp [hread, Nat.add_comm 1]))
    have htiles := Tiles.unclosed .nil hbody hreported
    simpa [withPiece, hread, hend, Nat.add_comm 1] using htiles

theorem tiles_textFrom {reported : List (Position × LexicalError)} (before text : List Char) :
    (textFrom (.counted before) text).problems ⊆ reported →
      Tiles reported before text (textFrom (.counted before) text).tokens := by
  apply textFrom_induct (P := fun before text s => s.problems ⊆ reported →
    Tiles reported before text s.tokens)
  · intro before _
    have htiles : Tiles reported before [] [⟨.endOfInput, "", .counted (before ++ [])⟩] :=
      .stop .nil
    rwa [List.append_nil] at htiles
  · intro before c rest later ih h
    apply tiles_withPiece (ih (List.Subset.trans (List.subset_append_right _ _) h))
    intro e he
    exact h (List.mem_append_left _ (List.mem_map.mpr ⟨(0, e), he, rfl⟩))

/-- Every problem stands at the counted position of some character of the text, or at its end. -/
theorem exists_cut_of_problem (before text : List Char) :
    ∀ e ∈ (textFrom (.counted before) text).problems, ∃ front back, text = front ++ back ∧
      e.1 = .counted (before ++ front) := by
  apply textFrom_induct (P := fun before text s => ∀ e ∈ s.problems, ∃ front back,
    text = front ++ back ∧ e.1 = .counted (before ++ front))
  · simp
  · intro before c rest later ih e he
    have hsplit : c :: rest = c :: rest.take (Piece.read c rest).extra ++
        rest.drop (Piece.read c rest).extra := by simp
    rcases List.mem_append.mp he with hfirst | hlater
    · obtain ⟨⟨n, problem⟩, _, rfl⟩ := List.mem_map.mp hfirst
      refine ⟨(c :: rest.take (Piece.read c rest).extra).take n,
        (c :: rest.take (Piece.read c rest).extra).drop n ++
          rest.drop (Piece.read c rest).extra, ?_, Position.after_counted _ _⟩
      rw [← List.append_assoc, List.take_append_drop, ← hsplit]
    · obtain ⟨front, back, hrest, hposition⟩ := ih e hlater
      refine ⟨c :: rest.take (Piece.read c rest).extra ++ front, back, ?_, ?_⟩
      · rw [List.append_assoc, ← hrest, ← hsplit]
      · rw [hposition, List.append_assoc]

/-- The name of a token, where it has one, is the text it stands for. -/
theorem text_of_name? (source : String) :
    ∀ t ∈ (Scan.source source).tokens, ∀ name, t.kind.name? = some name → t.text = name := by
  apply textFrom_induct (P := fun _ _ s => ∀ t ∈ s.tokens, ∀ name,
    t.kind.name? = some name → t.text = name) _ _ [] source.toList
  · intro before t ht name hname
    obtain rfl := List.mem_singleton.mp ht
    cases hname
  · intro before c rest later ih t ht name hname
    rcases List.mem_append.mp ht with hfirst | hlater
    · obtain ⟨kind, hkind, rfl⟩ := Option.map_eq_some_iff.mp (Option.mem_toList.mp hfirst)
      exact Piece.text_of_name? hkind hname
    · exact ih t hlater name hname

theorem tiles_source (source : String) :
    Tiles (Scan.source source).problems [] source.toList (Scan.source source).tokens :=
  tiles_textFrom [] source.toList (List.Subset.refl _)

/-- What a scan says of its text: where the tokens and the problems stand, and what is between
them. -/
structure Covers (s : Scan) (source : String) : Prop where
  tiles : Tiles s.problems [] source.toList s.tokens
  ends : ∃ tokens stop, s.tokens = tokens ++ [stop] ∧ stop.kind = .endOfInput ∧
    stop.position.offset = source.utf8ByteSize ∧
      ∀ t ∈ tokens, t.kind ≠ .endOfInput ∧ t.text ≠ ""
  cut : ∀ t ∈ s.tokens, ∃ before behind : String, source = before ++ t.text ++ behind ∧
    t.position = .counted before.toList ∧ t.position.offset = before.utf8ByteSize
  ordered : s.tokens.Pairwise fun t t' => t.position.offset < t'.position.offset ∧
    t.position.offset + t.text.utf8ByteSize ≤ t'.position.offset
  placed : ∀ e ∈ s.problems, ∃ before behind : String, source = before ++ behind ∧
    e.1 = .counted before.toList
  invalid : ∀ t ∈ s.tokens, t.kind = .invalid → ∃ e, (t.position, e) ∈ s.problems

/-- Scanning covers every text with tokens, gaps and the problems in them. -/
theorem covers_source (source : String) : (Scan.source source).Covers source := by
  have htiles := tiles_source source
  refine ⟨htiles, ?_, ?_, htiles.ordered, ?_, htiles.invalid_reported⟩
  · obtain ⟨tokens, htokens, hkinds⟩ := htiles.exists_end
    exact ⟨tokens, _, htokens, rfl, by simp [Position.counted], hkinds⟩
  · intro t ht
    obtain ⟨front, back, hsource, hposition⟩ := htiles.exists_cut t ht
    refine ⟨String.ofList front, String.ofList back, ?_, by simpa using hposition, ?_⟩
    · rw [← String.ofList_toList (s := source), hsource]
      simp [String.ofList_append, String.append_assoc]
    · simp [hposition, Position.counted]
  · intro e he
    obtain ⟨front, back, hsource, hposition⟩ := exists_cut_of_problem [] source.toList e he
    refine ⟨String.ofList front, String.ofList back, ?_, by simpa using hposition⟩
    rw [← String.ofList_append, ← hsource, String.ofList_toList]

end Scan

end WireSpec
