import WireSpec.Token.Scan
/-!
# Gaps between tokens

A gap consists of blanks, comments that end with their line, and comments between marks, which can
be nested.  These are described here by themselves; scanning finds exactly the comments described,
and passes over every gap.
-/

namespace WireSpec

/-! ### Nested comments -/

/-- The text between the two marks of a comment: the comments in it are closed, and no other two of
its characters, the closing mark behind it included, form a mark. -/
inductive Nested : List Char → Prop where
  | nil : Nested []
  | char {c : Char} {rest : List Char} (hopen : ¬(c = '/' ∧ (rest ++ ['*']).head? = some '*'))
      (hclose : ¬(c = '*' ∧ rest.head? = some '/')) (h : Nested rest) : Nested (c :: rest)
  | comment {inner rest : List Char} (hinner : Nested inner) (h : Nested rest) :
      Nested ('/' :: '*' :: (inner ++ '*' :: '/' :: rest))

/-- Behind an opening mark, nothing closes the comment. -/
def Unclosed (text : List Char) : Prop :=
  ¬∃ body behind, Nested body ∧ text = body ++ '*' :: '/' :: behind

/-- The text ends so many open comments, one behind the other, and has nothing behind them. -/
def Closes : Nat → List Char → Prop
  | 0, text => text = []
  | depth + 1, text =>
      ∃ body rest, Nested body ∧ text = body ++ '*' :: '/' :: rest ∧ Closes depth rest

theorem exists_cons_of_head?_take {text : List Char} {n : Nat} {c : Char}
    (h : (text.take n).head? = some c) : ∃ rest, text = c :: rest := by
  rw [List.head?_take] at h
  split at h
  · cases h
  · exact List.head?_eq_some_iff.mp h

namespace Piece

theorem closes_of_commentLength? {depth n : Nat} {text : List Char}
    (h : commentLength? depth text = some n) : Closes depth (text.take n) := by
  fun_induction commentLength? depth text generalizing n with
  | case1 text =>
      obtain rfl := Option.some.inj h
      exact List.take_zero
  | case2 => cases h
  | case3 depth rest ih =>
      -- The comment that opens here is closed first, and belongs to the body of the one around it.
      obtain ⟨m, hm, rfl⟩ := Option.map_eq_some_iff.mp h
      obtain ⟨inner, _, hinner, htake, body, behind, hbody, rfl, hcloses⟩ := ih hm
      refine ⟨'/' :: '*' :: (inner ++ '*' :: '/' :: body), behind, .comment hinner hbody, ?_,
        hcloses⟩
      rw [List.take_succ_cons, List.take_succ_cons, htake]
      simp
  | case4 depth rest ih =>
      obtain ⟨m, hm, rfl⟩ := Option.map_eq_some_iff.mp h
      exact ⟨[], rest.take m, .nil, rfl, ih hm⟩
  | case5 depth c rest hopen hclose ih =>
      obtain ⟨m, hm, rfl⟩ := Option.map_eq_some_iff.mp h
      obtain ⟨body, behind, hbody, htake, hcloses⟩ := ih hm
      refine ⟨c :: body, behind, .char ?_ ?_ hbody, ?_, hcloses⟩
      · rintro ⟨rfl, hnext⟩
        have hhead : (rest.take m).head? = some '*' := by
          rw [htake]
          cases body with
          | nil => rfl
          | cons d body => exact hnext
        obtain ⟨later, rfl⟩ := exists_cons_of_head?_take hhead
        exact hopen later rfl rfl
      · rintro ⟨rfl, hnext⟩
        have hhead : (rest.take m).head? = some '/' := by
          cases body with
          | nil => cases hnext
          | cons d body => rwa [htake]
        obtain ⟨later, rfl⟩ := exists_cons_of_head?_take hhead
        exact hclose later rfl rfl
      · rw [List.take_succ_cons, htake, List.cons_append]

/-- A nested comment is passed over, whatever is behind it. -/
theorem commentLength?_of_nested {body : List Char} (h : Nested body) (depth : Nat)
    (rest : List Char) :
    commentLength? (depth + 1) (body ++ '*' :: '/' :: rest) =
      (commentLength? depth rest).map (· + (body.length + 2)) := by
  induction h generalizing depth rest with
  | nil => simp [commentLength?]
  | @char c body hopen hclose h ih =>
      rw [List.cons_append, commentLength?]
      · rw [ih, Option.map_map]
        rfl
      · intro later hc htext
        refine hopen ⟨hc, ?_⟩
        cases body with
        | nil => rfl
        | cons d body => simpa using congrArg List.head? htext
      · intro later hc htext
        cases body with
        | nil => cases htext
        | cons d body => exact hclose ⟨hc, by simpa using congrArg List.head? htext⟩
  | @comment inner body hinner h ihinner ih =>
      have happend : '/' :: '*' :: (inner ++ '*' :: '/' :: body) ++ '*' :: '/' :: rest =
          '/' :: '*' :: (inner ++ '*' :: '/' :: (body ++ '*' :: '/' :: rest)) := by simp
      rw [happend, commentLength?, ihinner, ih, Option.map_map, Option.map_map]
      congr 1
      funext n
      simp
      omega

theorem commentLength?_eq_none {text : List Char} :
    commentLength? 1 text = none ↔ Unclosed text := by
  constructor
  · rintro h ⟨body, behind, hbody, rfl⟩
    rw [commentLength?_of_nested hbody] at h
    simp [commentLength?] at h
  · intro h
    cases hn : commentLength? 1 text with
    | none => rfl
    | some n =>
        obtain ⟨body, behind, hbody, htake, _⟩ := closes_of_commentLength? hn
        refine absurd ⟨body, behind ++ text.drop n, hbody, ?_⟩ h
        calc
          text = text.take n ++ text.drop n := (List.take_append_drop n text).symm
          _ = body ++ '*' :: '/' :: (behind ++ text.drop n) := by rw [htake]; simp

end Piece

/-! ### Gaps -/

/-- The text is a gap, `behind` being all that follows it: a comment that ends with its line has a
line break behind it or nothing. -/
inductive Gap : List Char → List Char → Prop where
  | nil {behind : List Char} : Gap [] behind
  | blank {c : Char} {gap behind : List Char} (hc : Text.isBlank c = true) (h : Gap gap behind) :
      Gap (c :: gap) behind
  | line {text gap behind : List Char} (htext : '\n' ∉ text)
      (hend : ∀ c ∈ (gap ++ behind).head?, c = '\n') (h : Gap gap behind) :
      Gap ('/' :: '/' :: (text ++ gap)) behind
  | block {body gap behind : List Char} (hbody : Nested body) (h : Gap gap behind) :
      Gap ('/' :: '*' :: (body ++ '*' :: '/' :: gap)) behind

/-- The first characters that satisfy a condition, where the next does not. -/
theorem takeWhile_append_stop {α : Type} {p : α → Bool} {xs ys : List α}
    (hxs : ∀ x ∈ xs, p x = true) (hys : ∀ y ∈ ys.head?, p y = false) :
    (xs ++ ys).takeWhile p = xs := by
  rw [List.takeWhile_append_of_pos hxs]
  cases ys with
  | nil => simp
  | cons y ys => simp [hys y rfl]

namespace Piece

theorem read_blank {c : Char} (hc : Text.isBlank c = true) (rest : List Char) :
    read c rest = gap 0 := by
  unfold read
  rw [hc]
  rfl

theorem lineComment_append {text behind : List Char} (htext : '\n' ∉ text)
    (hend : ∀ c ∈ behind.head?, c = '\n') :
    lineComment (text ++ behind) = gap (1 + text.length) := by
  have hline : (text ++ behind).takeWhile (· != '\n') = text := by
    refine takeWhile_append_stop ?_ ?_
    · intro c hc
      exact bne_iff_ne.mpr fun heq => htext (heq ▸ hc)
    · intro c hc
      simp [hend c hc]
  unfold lineComment
  rw [hline]

theorem blockComment_append {body : List Char} (hbody : Nested body) (behind : List Char) :
    blockComment (body ++ '*' :: '/' :: behind) = gap (1 + (body.length + 2)) := by
  have hlength : commentLength? 1 (body ++ '*' :: '/' :: behind) = some (body.length + 2) := by
    rw [commentLength?_of_nested hbody, commentLength?]
    simp
  unfold blockComment
  rw [hlength]

theorem read_line (rest : List Char) : read '/' ('/' :: rest) = lineComment rest := rfl

theorem read_block (rest : List Char) : read '/' ('*' :: rest) = blockComment rest := rfl

end Piece

namespace Scan

/-- What a piece adds to the scan of the text behind it. -/
def withPiece (p : Position) (piece : Piece) (text : List Char) (later : Scan) : Scan where
  tokens := (piece.kind.map fun kind => ⟨kind, String.ofList text, p⟩).toList ++ later.tokens
  problems := piece.problems.map (fun (n, e) => (p.after (text.take n), e)) ++ later.problems

@[simp] theorem textFrom_nil (p : Position) : textFrom p [] = ⟨[⟨.endOfInput, "", p⟩], []⟩ := by
  rw [textFrom.eq_def]

theorem textFrom_cons (p : Position) (c : Char) (rest : List Char) :
    textFrom p (c :: rest) =
      withPiece p (Piece.read c rest) (c :: rest.take (Piece.read c rest).extra)
        (textFrom (p.after (c :: rest.take (Piece.read c rest).extra))
          (rest.drop (Piece.read c rest).extra)) := by
  rw [textFrom.eq_def]
  rfl

/-- The scan of a text whose first piece is known. -/
theorem textFrom_append {p : Position} {piece : Piece} {c : Char} {text rest : List Char}
    (hread : Piece.read c (text ++ rest) = piece) (hextra : piece.extra = text.length) :
    textFrom p (c :: (text ++ rest)) =
      withPiece p piece (c :: text) (textFrom (p.after (c :: text)) rest) := by
  rw [textFrom_cons, hread, hextra, List.take_left, List.drop_left]

theorem textFrom_append_gap {p : Position} {c : Char} {text rest : List Char}
    (hread : Piece.read c (text ++ rest) = Piece.gap text.length) :
    textFrom p (c :: (text ++ rest)) = textFrom (p.after (c :: text)) rest :=
  textFrom_append hread rfl

/-- Scanning passes over a gap. -/
theorem textFrom_gap {gap behind : List Char} (h : Gap gap behind) (p : Position) :
    textFrom p (gap ++ behind) = textFrom (p.after gap) behind := by
  induction h generalizing p with
  | nil => rfl
  | @blank c gap behind hc h ih =>
      rw [List.cons_append, textFrom_cons, Piece.read_blank hc]
      exact ih _
  | @line text gap behind htext hend h ih =>
      have hread : Piece.read '/' ('/' :: text ++ (gap ++ behind)) =
          Piece.gap ('/' :: text).length := by
        rw [List.cons_append, Piece.read_line, Piece.lineComment_append htext hend,
          List.length_cons, Nat.add_comm]
      have happend : '/' :: '/' :: (text ++ gap) ++ behind =
          '/' :: ('/' :: text ++ (gap ++ behind)) := by simp
      rw [happend, textFrom_append_gap hread, ih, ← Position.after_append]
      rfl
  | @block body gap behind hbody h ih =>
      have hread : Piece.read '/' ('*' :: (body ++ ['*', '/']) ++ (gap ++ behind)) =
          Piece.gap ('*' :: (body ++ ['*', '/'])).length := by
        have happend : '*' :: (body ++ ['*', '/']) ++ (gap ++ behind) =
            '*' :: (body ++ '*' :: '/' :: (gap ++ behind)) := by simp
        rw [happend, Piece.read_block, Piece.blockComment_append hbody]
        simp [Nat.add_comm]
      have happend : '/' :: '*' :: (body ++ '*' :: '/' :: gap) ++ behind =
          '/' :: ('*' :: (body ++ ['*', '/']) ++ (gap ++ behind)) := by simp
      rw [happend, textFrom_append_gap hread, ih, ← Position.after_append]
      simp

end Scan

end WireSpec
