import WireSpec.Proofs.Schema.Recovery
/-!
# Declarations that cannot be read

The heading of a message or an enum is what stands between its keyword and its block.  Where it is
none, the declaration is passed over with its block, and where it is one, what stands in a statement
of a message makes no difference for what stands behind it.
-/

namespace WireSpec

open WireSpec.Parser

/-! ### Headings and blocks -/

/-- A name, which can be missing. -/
def NameOrNone (tokens : List Token) : Prop :=
  tokens = [] ∨ ∃ name, tokens = [name] ∧ name.kind.name?.isSome = true

/-- What stands between the keyword and the block of an enum. -/
def EnumHeading (tokens : List Token) : Prop := NameOrNone tokens

/-- The keyword that announces the base of a message, with the name of the base. -/
def BaseOrNone (tokens : List Token) : Prop :=
  tokens = [] ∨
    ∃ word base, tokens = word :: base ∧ word.kind = .keyword .extendsBase ∧ NameOrNone base

/-- What stands between the keyword and the block of a message. -/
def MessageHeading (tokens : List Token) : Prop :=
  ∃ name base, tokens = name ++ base ∧ NameOrNone name ∧ BaseOrNone base

/-- Tokens whose braces match. -/
inductive Balanced : List Token → Prop
  | nil : Balanced []
  | token {t : Token} {rest : List Token} (hopen : t.kind ≠ .symbol .braceOpen)
      (hclose : t.kind ≠ .symbol .braceClose) (hend : t.kind ≠ .endOfInput) :
      Balanced rest → Balanced (t :: rest)
  | block {opening closing : Token} {inner rest : List Token}
      (hopen : opening.kind = .symbol .braceOpen) (hclose : closing.kind = .symbol .braceClose) :
      Balanced inner → Balanced rest → Balanced (opening :: inner ++ closing :: rest)

/-- A whole block in braces. -/
structure Block (opening : Token) (inner : List Token) (closing : Token) : Prop where
  opens : opening.kind = .symbol .braceOpen
  balanced : Balanced inner
  closes : closing.kind = .symbol .braceClose

theorem Balanced.past {inner : List Token} (h : Balanced inner) (depth : Nat) (rest : List Token) :
    Skip.past Skip.declaration (depth + 1) (inner ++ rest) =
      Skip.past Skip.declaration (depth + 1) rest := by
  induction h generalizing depth rest with
  | nil => rfl
  | @token t tail hopen hclose hend _ ih =>
      have hgoes : Skip.declaration (depth + 1) t.kind = .goOn (depth + 1) := by
        unfold Skip.declaration
        split <;> simp_all
      rw [List.cons_append]
      simp only [Skip.past, hgoes]
      exact ih depth rest
  | @block opening closing inner tail hopen hclose _ _ ihinner ihtail =>
      have hopens : Skip.declaration (depth + 1) opening.kind = .goOn (depth + 2) := by
        rw [hopen]
        rfl
      have hcloses : Skip.declaration (depth + 2) closing.kind = .goOn (depth + 1) := by
        rw [hclose]
        rfl
      rw [List.append_assoc, List.cons_append, List.cons_append]
      simp only [Skip.past, hopens]
      rw [ihinner (depth + 1)]
      simp only [Skip.past, hcloses]
      exact ihtail depth rest

/-- A block is passed over with what stands in front of it. -/
theorem Block.past {opening closing : Token} {inner : List Token}
    (hblock : Block opening inner closing) {heading : List Token}
    (hheading : ∀ t ∈ heading, t.kind.staysInHeading = true) (behind : List Token) :
    Skip.past Skip.declaration 0 (heading ++ opening :: (inner ++ closing :: behind)) = behind := by
  induction heading with
  | nil =>
      have hopens : Skip.declaration 0 opening.kind = .goOn 1 := by
        rw [hblock.opens]
        rfl
      have hcloses : Skip.declaration 1 closing.kind = .stopBehind := by
        rw [hblock.closes]
        rfl
      rw [List.nil_append]
      simp only [Skip.past, hopens]
      rw [hblock.balanced.past]
      simp only [Skip.past, hcloses]
  | cons head tail ih =>
      have hhead : Skip.declaration 0 head.kind = .goOn 0 := by
        obtain ⟨hbody, hopen⟩ := TokenKind.staysInHeading_iff.mp (hheading head (.head tail))
        unfold TokenKind.staysInBody at hbody
        unfold Skip.declaration
        split <;> simp_all
      rw [List.cons_append]
      simp only [Skip.past, hhead]
      exact ih fun t ht => hheading t (.tail head ht)

/-! ### Reading headings -/

/-- What is left when a name has been read, if there is one. -/
def afterName : List Token → List Token
  | [] => []
  | name :: rest => if name.kind.name?.isSome then rest else name :: rest

def afterBase : List Token → List Token
  | [] => []
  | word :: rest => if word.kind = .keyword .extendsBase then afterName rest else word :: rest

theorem nameOrNone_iff {tokens : List Token} : NameOrNone tokens ↔ afterName tokens = [] := by
  constructor
  · rintro (rfl | ⟨name, rfl, hname⟩)
    · rfl
    · simp [afterName, hname]
  · intro h
    cases tokens with
    | nil => exact Or.inl rfl
    | cons name rest =>
        by_cases hname : name.kind.name?.isSome = true
        · rw [afterName, if_pos hname] at h
          exact Or.inr ⟨name, by rw [h], hname⟩
        · rw [afterName, if_neg hname] at h
          cases h

theorem baseOrNone_iff {tokens : List Token} : BaseOrNone tokens ↔ afterBase tokens = [] := by
  constructor
  · rintro (rfl | ⟨word, base, rfl, hword, hbase⟩)
    · rfl
    · rw [afterBase, if_pos hword, nameOrNone_iff.mp hbase]
  · intro h
    cases tokens with
    | nil => exact Or.inl rfl
    | cons word rest =>
        by_cases hword : word.kind = .keyword .extendsBase
        · rw [afterBase, if_pos hword] at h
          exact Or.inr ⟨word, rest, rfl, hword, nameOrNone_iff.mpr h⟩
        · rw [afterBase, if_neg hword] at h
          cases h

theorem exists_append_afterName (tokens : List Token) :
    ∃ name, tokens = name ++ afterName tokens ∧ NameOrNone name := by
  cases tokens with
  | nil => exact ⟨[], rfl, Or.inl rfl⟩
  | cons name rest =>
      by_cases hname : name.kind.name?.isSome = true
      · exact ⟨[name], by rw [afterName, if_pos hname]; rfl, Or.inr ⟨name, rfl, hname⟩⟩
      · exact ⟨[], by rw [afterName, if_neg hname]; rfl, Or.inl rfl⟩

theorem messageHeading_iff {tokens : List Token} :
    MessageHeading tokens ↔ afterBase (afterName tokens) = [] := by
  constructor
  · rintro ⟨name, base, rfl, rfl | ⟨t, rfl, ht⟩, hbase⟩
    · -- The keyword in front of a base is no name.
      have hnone : afterName base = base := by
        rcases hbase with rfl | ⟨word, rest, rfl, hword, _⟩
        · rfl
        · simp [afterName, hword, TokenKind.name?, Keyword.modifierName?]
      rw [List.nil_append, hnone, baseOrNone_iff.mp hbase]
    · simp [afterName, ht, baseOrNone_iff.mp hbase]
  · intro h
    obtain ⟨name, htokens, hname⟩ := exists_append_afterName tokens
    exact ⟨name, afterName tokens, htokens, hname, baseOrNone_iff.mpr h⟩

theorem afterName_suffix (tokens : List Token) : afterName tokens <:+ tokens := by
  obtain ⟨name, htokens, _⟩ := exists_append_afterName tokens
  exact ⟨name, htokens.symm⟩

theorem afterBase_suffix (tokens : List Token) : afterBase tokens <:+ tokens := by
  cases tokens with
  | nil => exact List.suffix_refl []
  | cons word rest =>
      rw [afterBase]
      split
      · exact (afterName_suffix rest).trans (List.suffix_cons word rest)
      · exact List.suffix_refl _

namespace Declaration

variable {opening : Token}

theorem exists_run_name? (hopen : opening.kind = .symbol .braceOpen) (close : Position)
    (heading : List Token) : ∃ name, ∀ behind, name?.run close (heading ++ opening :: behind) =
      ⟨name, afterName heading ++ opening :: behind, []⟩ := by
  cases heading with
  | nil => exact ⟨none, fun behind => by simp [run_name?, front, hopen, TokenKind.name?, afterName]⟩
  | cons head tail =>
      refine ⟨head.kind.name?, fun behind => ?_⟩
      cases hname : head.kind.name? <;> simp [run_name?, front, hname, afterName]

theorem exists_run_nameOr (hopen : opening.kind = .symbol .braceOpen) (wanted : Expectation)
    (close : Position) (heading : List Token) : ∃ name problems, ∀ behind,
      (nameOr wanted).run close (heading ++ opening :: behind) =
        ⟨name, afterName heading ++ opening :: behind, problems⟩ := by
  obtain ⟨name, hrun⟩ := exists_run_name? hopen close heading
  cases name with
  | some name => exact ⟨name, [], fun behind => by rw [nameOr, run_bind, hrun]; rfl⟩
  | none =>
      let missing := front close (afterName heading ++ [opening])
      refine ⟨"", [(missing.position, .unexpected wanted missing.kind)], fun behind => ?_⟩
      rw [nameOr, run_bind, hrun]
      simp only [run_bind, run_reportHere, front_append, run_pure]
      rfl

theorem exists_run_baseName (hopen : opening.kind = .symbol .braceOpen) (close : Position)
    (heading : List Token) : ∃ base problems, ∀ behind,
      baseName.run close (heading ++ opening :: behind) =
        ⟨base, afterBase heading ++ opening :: behind, problems⟩ := by
  cases heading with
  | nil =>
      refine ⟨none, [], fun behind => ?_⟩
      simp [baseName, eatKeyword, run_eatKind, front, hopen, afterBase]
  | cons word tail =>
      by_cases hword : word.kind = .keyword .extendsBase
      · obtain ⟨name, hrun⟩ := exists_run_name? hopen close tail
        rw [afterBase, if_pos hword]
        have heat (behind : List Token) :
            (eatKeyword .extendsBase).run close (word :: tail ++ opening :: behind) =
              ⟨true, tail ++ opening :: behind, []⟩ := by
          simp [eatKeyword, run_eatKind, front, hword]
        cases name with
        | some name =>
            refine ⟨some name, [], fun behind => ?_⟩
            rw [baseName, run_bind, heat]
            simp only [if_true, run_bind, hrun, run_pure, List.append_nil]
        | none =>
            let missing := front close (afterName tail ++ [opening])
            refine ⟨none, [(missing.position, .unexpected .baseName missing.kind)], ?_⟩
            intro behind
            rw [baseName, run_bind, heat]
            simp only [if_true, run_bind, hrun, run_reportHere, front_append, run_pure]
            rfl
      · refine ⟨none, [], fun behind => ?_⟩
        simp [baseName, eatKeyword, run_eatKind, front, hword, afterBase]

/-! ### Declarations without a heading -/

/-- Where something is left between the heading and the brace, all of that is passed over up to the
end of the block. -/
theorem exists_run_unopened (α : Type) (mark : Mark)
    (hmark : mark.symbol = .braceOpen) {opening closing : Token} {inner : List Token}
    (hblock : Block opening inner closing) {rest : List Token} (hrest : rest ≠ [])
    (hstays : ∀ t ∈ rest, t.kind.staysInHeading = true) (close : Position) :
    ∃ problem, ∀ (opened : Parser (Option α)) behind,
      (do if ← expect mark then opened else skip Skip.declaration; return none).run close
        (rest ++ opening :: (inner ++ closing :: behind)) = ⟨none, behind, [problem]⟩ := by
  obtain ⟨head, tail, rfl⟩ := List.exists_cons_of_ne_nil hrest
  have hhead : head.kind ≠ .symbol mark.symbol := by
    rw [hmark]
    exact (TokenKind.staysInHeading_iff.mp (hstays head (.head tail))).2
  refine ⟨(head.position, .unexpected (.mark mark) head.kind), fun opened behind => ?_⟩
  have hpast := hblock.past hstays behind
  have hexpect : (expect mark).run close
      (head :: tail ++ opening :: (inner ++ closing :: behind)) =
        ⟨false, head :: tail ++ opening :: (inner ++ closing :: behind),
          [(head.position, .unexpected (.mark mark) head.kind)]⟩ := by
    rw [run_expect, if_neg (by simpa [front] using hhead)]
    rfl
  rw [run_bind_eq hexpect]
  simp only [Bool.false_eq_true, if_false, run_bind, run_pure, skip, hpast, Outcome.behind,
    List.append_nil]

section Broken

variable {closing : Token} {heading inner : List Token}

theorem exists_run_enumDecl_none (keyword : Token)
    (hheading : ∀ t ∈ heading, t.kind.staysInHeading = true)
    (hnone : ¬EnumHeading heading) (hblock : Block opening inner closing) (close : Position) :
    ∃ problems, problems ≠ [] ∧ ∀ behind,
      enumDecl.run close (keyword :: (heading ++ opening :: (inner ++ closing :: behind))) =
        ⟨none, behind, problems⟩ := by
  obtain ⟨name, problems, hname⟩ := exists_run_nameOr hblock.opens .enumName close heading
  have hrest : afterName heading ≠ [] := fun h => hnone (nameOrNone_iff.mpr h)
  have hstays : ∀ t ∈ afterName heading, t.kind.staysInHeading = true :=
    fun t ht => hheading t ((afterName_suffix heading).subset ht)
  obtain ⟨problem, hunopened⟩ :=
    exists_run_unopened EnumDecl .openEnum rfl hblock hrest hstays close
  refine ⟨problems ++ [problem], by simp, fun behind => ?_⟩
  rw [enumDecl, run_bind_eq (run_advance keyword), run_bind_eq (hname _), hunopened]
  rfl

theorem exists_run_messageDecl_none (keyword : Token)
    (hheading : ∀ t ∈ heading, t.kind.staysInHeading = true)
    (hnone : ¬MessageHeading heading) (hblock : Block opening inner closing) (close : Position) :
    ∃ problems, problems ≠ [] ∧ ∀ behind,
      messageDecl.run close (keyword :: (heading ++ opening :: (inner ++ closing :: behind))) =
        ⟨none, behind, problems⟩ := by
  obtain ⟨name, problems, hname⟩ := exists_run_nameOr hblock.opens .messageName close heading
  obtain ⟨base, problems', hbase⟩ := exists_run_baseName hblock.opens close (afterName heading)
  have hrest : afterBase (afterName heading) ≠ [] := fun h => hnone (messageHeading_iff.mpr h)
  have hstays : ∀ t ∈ afterBase (afterName heading), t.kind.staysInHeading = true := fun t ht =>
    hheading t (((afterBase_suffix _).trans (afterName_suffix heading)).subset ht)
  obtain ⟨problem, hunopened⟩ :=
    exists_run_unopened MessageDecl .openMessage rfl hblock hrest hstays close
  refine ⟨problems ++ (problems' ++ [problem]), by simp, fun behind => ?_⟩
  rw [messageDecl, run_bind_eq (run_advance keyword), run_bind_eq (hname _),
    run_bind_eq (hbase _), hunopened]
  rfl

end Broken

/-! ### The declarations of a protocol -/

/-- The items in the body of a protocol. -/
def declarations : Parser (List (Option Item)) := Parser.sequence inProtocol item

section Items

variable {close : Position} {keyword : Token} {tail : List Token}

theorem run_declarations (hgoes : inProtocol (keyword :: tail) = true) :
    declarations.run close (keyword :: tail) =
      let first := item.run close (keyword :: tail)
      let later := declarations.run close first.rest
      ⟨first.value :: later.value, later.rest, first.problems ++ later.problems⟩ :=
  run_sequence_cons hgoes ((owesAt_item hgoes).length_lt (by decide))

theorem run_declarations_message (hkeyword : keyword.kind = .keyword .message) :
    declarations.run close (keyword :: tail) =
      let decl := messageDecl.run close (keyword :: tail)
      let later := declarations.run close decl.rest
      ⟨decl.value.map .messageDecl :: later.value, later.rest,
        decl.problems ++ later.problems⟩ := by
  have hitem : item.run close (keyword :: tail) =
      let decl := messageDecl.run close (keyword :: tail)
      ⟨decl.value.map .messageDecl, decl.rest, decl.problems⟩ := by
    simp [item, peek, front, hkeyword]
  rw [run_declarations (by simp [inProtocol, hkeyword]), hitem]

theorem run_declarations_enum (hkeyword : keyword.kind = .keyword .enum) :
    declarations.run close (keyword :: tail) =
      let decl := enumDecl.run close (keyword :: tail)
      let later := declarations.run close decl.rest
      ⟨decl.value.map .enumDecl :: later.value, later.rest, decl.problems ++ later.problems⟩ := by
  have hitem : item.run close (keyword :: tail) =
      let decl := enumDecl.run close (keyword :: tail)
      ⟨decl.value.map .enumDecl, decl.rest, decl.problems⟩ := by
    simp [item, peek, front, hkeyword]
  rw [run_declarations (by simp [inProtocol, hkeyword]), hitem]

end Items

/-- What a message with a heading is read as depends on the statements in its body only. -/
theorem exists_run_messageDecl (keyword : Token) {heading : List Token}
    (hheading : MessageHeading heading) (hopen : opening.kind = .symbol .braceOpen)
    (close : Position) : ∃ name base problems, ∀ behind,
      messageDecl.run close (keyword :: (heading ++ opening :: behind)) =
        let fields := statements.run close behind
        let closed := (expect .closeMessage).run close fields.rest
        ⟨some ⟨name, base, fields.value.filterMap id, keyword.position⟩, closed.rest,
          problems ++ (fields.problems ++ closed.problems)⟩ := by
  obtain ⟨name, problems, hname⟩ := exists_run_nameOr hopen .messageName close heading
  obtain ⟨base, problems', hbase⟩ := exists_run_baseName hopen close (afterName heading)
  rw [messageHeading_iff.mp hheading] at hbase
  refine ⟨name, base, problems ++ problems', fun behind => ?_⟩
  have hexpect : (expect .openMessage).run close (opening :: behind) = ⟨true, behind, []⟩ :=
    Grammar.run_expect_ok hopen
  rw [messageDecl, run_bind_eq (run_advance keyword), run_bind_eq (hname behind),
    run_bind_eq (hbase behind), List.nil_append, run_bind_eq hexpect]
  simp [Outcome.behind, body, statements]

/-- Recovery resumes exactly at the next boundary.  Whatever stands in front of the semicolon of a
statement, the fields of a message are read on just behind it; what stands there makes no difference
for the fields, the declarations and the problems behind it.  And where the heading of a message or
an enum is none, the declarations of the protocol are read on just behind its block. -/
theorem recovery_resumes :
    (∀ inside semicolon, Statement inside semicolon →
      Resumes statements (inside ++ [semicolon])) ∧
    (∀ keyword heading opening passed inside semicolon,
      keyword.kind = .keyword .message → MessageHeading heading →
      opening.kind = .symbol .braceOpen → Resumes statements passed →
      Statement inside semicolon →
      ∀ close, ∃ (decl : MessageDecl) (problems : List (Position × SyntaxError))
        (fields : List FieldDecl) (problems' : List (Position × SyntaxError)), ∀ behind,
        let tail := statements.run close behind
        let closed := (expect .closeMessage).run close tail.rest
        let later := declarations.run close closed.rest
        declarations.run close (keyword :: (heading ++ opening :: (passed ++ behind))) =
          ⟨some (.messageDecl { decl with fields := decl.fields ++ tail.value.filterMap id }) ::
              later.value, later.rest,
            problems ++ (tail.problems ++ closed.problems ++ later.problems)⟩ ∧
        declarations.run close
            (keyword :: (heading ++ opening :: (passed ++ (inside ++ semicolon :: behind)))) =
          ⟨some (.messageDecl
              { decl with fields := decl.fields ++ (fields ++ tail.value.filterMap id) }) ::
              later.value, later.rest,
            problems ++ (problems' ++ (tail.problems ++ closed.problems ++ later.problems))⟩) ∧
    (∀ keyword heading opening inner closing,
      (∀ t ∈ heading, t.kind.staysInHeading = true) → Block opening inner closing →
      (keyword.kind = .keyword .message ∧ ¬MessageHeading heading ∨
        keyword.kind = .keyword .enum ∧ ¬EnumHeading heading) →
      ∀ close, ∃ problems, problems ≠ [] ∧ ∀ behind,
        declarations.run close (keyword :: (heading ++ opening :: (inner ++ closing :: behind))) =
          let later := declarations.run close behind
          ⟨none :: later.value, later.rest, problems ++ later.problems⟩) := by
  refine ⟨fun _ _ => resumes_statement, ?_, ?_⟩
  · intro keyword heading opening passed inside semicolon hkeyword hheading hopen hpassed hs close
    obtain ⟨name, base, problems, hmessage⟩ := exists_run_messageDecl keyword hheading hopen close
    obtain ⟨items, problems', hitems⟩ := hpassed close
    obtain ⟨items', problems'', hitems'⟩ := resumes_statement hs close
    refine ⟨⟨name, base, items.filterMap id, keyword.position⟩, problems ++ problems',
      items'.filterMap id, problems'', fun behind => ⟨?_, ?_⟩⟩
    · rw [run_declarations_message hkeyword, hmessage, hitems]
      simp
    · have hinserted := hitems' behind
      rw [List.append_assoc, List.singleton_append] at hinserted
      rw [run_declarations_message hkeyword, hmessage, hitems, hinserted]
      simp
  · intro keyword heading opening inner closing hheading hblock hbroken close
    rcases hbroken with ⟨hkeyword, hnone⟩ | ⟨hkeyword, hnone⟩
    · obtain ⟨problems, hproblems, hrun⟩ :=
        exists_run_messageDecl_none keyword hheading hnone hblock close
      refine ⟨problems, hproblems, fun behind => ?_⟩
      rw [run_declarations_message hkeyword, hrun]
      rfl
    · obtain ⟨problems, hproblems, hrun⟩ :=
        exists_run_enumDecl_none keyword hheading hnone hblock close
      refine ⟨problems, hproblems, fun behind => ?_⟩
      rw [run_declarations_enum hkeyword, hrun]
      rfl

open Grammar (tokensOf)

def semicolonToken : Token := ⟨.symbol .semicolon, "", .unknown⟩

def braceToken : Token := ⟨.symbol .braceOpen, "", .unknown⟩

/-- `u8 a(f[(`, a field with brackets that are never closed -/
def unclosedField : List Token :=
  tokensOf [.keyword (.type (.int .u8)), .identifier "a", .symbol .parenOpen, .identifier "f",
    .symbol .bracketOpen, .symbol .parenOpen]

theorem statement_unclosedField : Statement unclosedField semicolonToken := ⟨by decide +kernel, rfl⟩

/-- Behind `message M { ;` the field with unclosed brackets changes nothing of what is left, and
`message A B { { } }` is passed over. -/
theorem recovery_resumes_unclosedField :
    Resumes statements (unclosedField ++ [semicolonToken]) ∧
    (∀ behind,
      (declarations.run .start (⟨.keyword .message, "", .unknown⟩ ::
        (tokensOf [.identifier "M"] ++ braceToken :: ([semicolonToken] ++
          (unclosedField ++ semicolonToken :: behind))))).rest =
      (declarations.run .start (⟨.keyword .message, "", .unknown⟩ ::
        (tokensOf [.identifier "M"] ++ braceToken :: ([semicolonToken] ++ behind)))).rest) ∧
    ∀ behind,
      (declarations.run .start (⟨.keyword .message, "", .unknown⟩ ::
        (tokensOf [.identifier "A", .identifier "B"] ++ braceToken ::
          (tokensOf [.symbol .braceOpen, .symbol .braceClose] ++
            ⟨.symbol .braceClose, "", .unknown⟩ :: behind)))).value =
        none :: (declarations.run .start behind).value := by
  obtain ⟨hresumes, hinserted, hpassed⟩ := recovery_resumes
  have hname : MessageHeading (tokensOf [.identifier "M"]) :=
    ⟨_, [], (List.append_nil _).symm, Or.inr ⟨_, rfl, rfl⟩, Or.inl rfl⟩
  have hempty : Resumes statements ([] ++ [semicolonToken]) :=
    resumes_statement ⟨by simp, rfl⟩
  have hnone : ¬MessageHeading (tokensOf [.identifier "A", .identifier "B"]) := by
    rw [messageHeading_iff]
    decide +kernel
  have hblock : Block braceToken (tokensOf [.symbol .braceOpen, .symbol .braceClose])
      ⟨.symbol .braceClose, "", .unknown⟩ := ⟨rfl, .block rfl rfl .nil .nil, rfl⟩
  refine ⟨hresumes _ _ statement_unclosedField, fun behind => ?_, fun behind => ?_⟩
  · obtain ⟨decl, problems, fields, problems', hboth⟩ := hinserted ⟨.keyword .message, "", .unknown⟩
      _ braceToken _ _ _ rfl hname rfl hempty statement_unclosedField .start
    obtain ⟨hwithout, hwith⟩ := hboth behind
    rw [List.nil_append] at hwithout hwith
    rw [hwith, hwithout]
  · obtain ⟨problems, _, hrun⟩ := hpassed ⟨.keyword .message, "", .unknown⟩ _ _ _ _
      (by decide +kernel) hblock (Or.inl ⟨rfl, hnone⟩) .start
    rw [hrun]

end Declaration

end WireSpec
