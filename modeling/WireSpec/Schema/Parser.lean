import WireSpec.Schema.SyntaxError
/-!
# Parsers over tokens

A parser reads tokens from the front of a list, reports problems on the way and always has a
result.  That it leaves a tail of the list it was given is part of its type, so reading never moves
backwards; `Parser.sequence` needs no more than that to end.
-/

namespace WireSpec

/-- What is left of the tokens, and the problems in the order in which they were met. -/
structure Outcome (α : Type) where
  value : α
  rest : List Token
  problems : List (Position × SyntaxError)

/-- `run` is given the position at which the text ends, and the tokens. -/
structure Parser (α : Type) where
  run : Position → List Token → Outcome α
  rest_suffix : ∀ close tokens, (run close tokens).rest <:+ tokens

namespace Parser

variable {α β : Type}

protected def pure (a : α) : Parser α where
  run _ tokens := ⟨a, tokens, []⟩
  rest_suffix _ tokens := List.suffix_refl tokens

protected def bind (p : Parser α) (f : α → Parser β) : Parser β where
  run close tokens :=
    let first := p.run close tokens
    let second := (f first.value).run close first.rest
    ⟨second.value, second.rest, first.problems ++ second.problems⟩
  rest_suffix close tokens := ((f _).rest_suffix close _).trans (p.rest_suffix close tokens)

instance : Monad Parser where
  pure := Parser.pure
  bind := Parser.bind

@[simp] theorem run_pure (a : α) (close : Position) (tokens : List Token) :
    (pure a : Parser α).run close tokens = ⟨a, tokens, []⟩ := rfl

@[simp] theorem run_bind (p : Parser α) (f : α → Parser β) (close : Position)
    (tokens : List Token) :
    (p >>= f).run close tokens =
      ⟨((f (p.run close tokens).value).run close (p.run close tokens).rest).value,
        ((f (p.run close tokens).value).run close (p.run close tokens).rest).rest,
        (p.run close tokens).problems ++
          ((f (p.run close tokens).value).run close (p.run close tokens).rest).problems⟩ := rfl

/-! ### Single tokens -/

/-- Behind the last token stands the end of the input. -/
def front (close : Position) : List Token → Token
  | [] => ⟨.endOfInput, "", close⟩
  | token :: _ => token

def peek : Parser Token where
  run close tokens := ⟨front close tokens, tokens, []⟩
  rest_suffix _ tokens := List.suffix_refl tokens

def peekSecond : Parser Token where
  run close tokens := ⟨front close tokens.tail, tokens, []⟩
  rest_suffix _ tokens := List.suffix_refl tokens

def advance : Parser Token where
  run close tokens := ⟨front close tokens, tokens.tail, []⟩
  rest_suffix _ tokens := List.tail_suffix tokens

def report (position : Position) (error : SyntaxError) : Parser Unit where
  run _ tokens := ⟨(), tokens, [(position, error)]⟩
  rest_suffix _ tokens := List.suffix_refl tokens

def reportHere (wanted : Expectation) : Parser Unit := do
  let token ← peek
  report token.position (.unexpected wanted token.kind)

def atKind (kind : TokenKind) : Parser Bool := do
  return (← peek).kind == kind

/-- Reads the next token if it is of the given kind, and says whether it was. -/
def eatKind (kind : TokenKind) : Parser Bool := do
  if ← atKind kind then
    let _ ← advance
    return true
  else return false

def eat (symbol : Symbol) : Parser Bool := eatKind (.symbol symbol)

def eatKeyword (keyword : Keyword) : Parser Bool := eatKind (.keyword keyword)

/-- Reads the mark that has to come next, or reports that it does not. -/
def expect (mark : Mark) : Parser Bool := do
  if ← eat mark.symbol then return true
  else
    reportHere (.mark mark)
    return false

def name? : Parser (Option String) := do
  match (← peek).kind.name? with
  | some name =>
      let _ ← advance
      return some name
  | none => return none

/-- Reads a name, or reports that it is missing and takes the empty one. -/
def nameOr (wanted : Expectation) : Parser String := do
  match ← name? with
  | some name => return name
  | none =>
      reportHere wanted
      return ""

/-! ### Repetition -/

/-- What an item leaves of the tokens; one that took nothing is made to take a token. -/
def remaining (tokens rest : List Token) : List Token :=
  if rest.length < tokens.length then rest else tokens.tail

theorem remaining_suffix {tokens rest : List Token} (h : rest <:+ tokens) :
    remaining tokens rest <:+ tokens := by
  unfold remaining
  split
  · exact h
  · exact List.tail_suffix tokens

theorem length_remaining_lt (token : Token) (tail rest : List Token) :
    (remaining (token :: tail) rest).length < (token :: tail).length := by
  unfold remaining
  split
  · assumption
  · simp

/-- Reads items as long as `goesOn` holds of the tokens to come. -/
def sequenceRun (goesOn : List Token → Bool) (item : Parser α) (close : Position) :
    List Token → Outcome (List α)
  | [] => ⟨[], [], []⟩
  | token :: tail =>
      if goesOn (token :: tail) then
        let first := item.run close (token :: tail)
        let later := sequenceRun goesOn item close (remaining (token :: tail) first.rest)
        ⟨first.value :: later.value, later.rest, first.problems ++ later.problems⟩
      else ⟨[], token :: tail, []⟩
termination_by tokens => tokens.length
decreasing_by exact length_remaining_lt token tail _

theorem sequenceRun_rest_suffix (goesOn : List Token → Bool) (item : Parser α)
    (close : Position) (tokens : List Token) :
    (sequenceRun goesOn item close tokens).rest <:+ tokens := by
  fun_induction sequenceRun goesOn item close tokens with
  | case1 => exact List.suffix_refl []
  | case2 token tail h first later ih =>
      exact ih.trans (remaining_suffix (item.rest_suffix close (token :: tail)))
  | case3 => exact List.suffix_refl _

def sequence (goesOn : List Token → Bool) (item : Parser α) : Parser (List α) where
  run := sequenceRun goesOn item
  rest_suffix := sequenceRun_rest_suffix goesOn item

end Parser

end WireSpec
