import WireSpec.Schema.Parser
/-!
# Recovery from syntax errors

After a syntax error, tokens are passed over up to a place where reading can go on: the end of the
statement, of the declaration, of the enum member, of the arguments or of the subexpression.  Each
of these is a `Verdict` on one token at a time; none goes past the end of the input.
-/

namespace WireSpec

namespace TokenKind

def startsDeclaration : TokenKind → Bool
  | keyword .message | keyword .enum | keyword .parser | keyword .importFile => true
  | _ => false

def startsField : TokenKind → Bool
  | keyword (.type _) | keyword .optional => true
  | _ => false

/-- Inside the body of a declaration: neither its closing brace nor what must be behind it. -/
def staysInBody : TokenKind → Bool
  | endOfInput | symbol .braceClose => false
  | kind => !kind.startsDeclaration

end TokenKind

namespace Skip

/-- Whether the passing over of tokens ends at a token. -/
inductive Verdict where
  | stopBefore
  | stopBehind
  /-- Goes on with so many brackets open. -/
  | goOn (depth : Nat)

/-- To just behind the next `;` outside of braces, or to a closing brace or a declaration. -/
def statement (depth : Nat) : TokenKind → Verdict
  | .endOfInput => .stopBefore
  | .symbol .semicolon => if depth = 0 then .stopBehind else .goOn depth
  | .symbol .braceOpen => .goOn (depth + 1)
  | .symbol .braceClose => if depth = 0 then .stopBefore else .goOn (depth - 1)
  | kind => if depth = 0 && kind.startsDeclaration then .stopBefore else .goOn depth

/-- To just behind a whole block in braces, or to a closing brace or a declaration in front of
one. -/
def declaration (depth : Nat) : TokenKind → Verdict
  | .endOfInput => .stopBefore
  | .symbol .braceOpen => .goOn (depth + 1)
  | .symbol .braceClose =>
      if depth = 0 then .stopBefore else if depth = 1 then .stopBehind else .goOn (depth - 1)
  | kind => if depth = 0 && kind.startsDeclaration then .stopBefore else .goOn depth

/-- To just behind the next comma in the body of an enum. -/
def enumMember (depth : Nat) : TokenKind → Verdict
  | .symbol .comma => .stopBehind
  | kind => if kind.staysInBody then .goOn depth else .stopBefore

/-- To just behind the next closing parenthesis of the statement. -/
def arguments (depth : Nat) : TokenKind → Verdict
  | .endOfInput | .symbol .semicolon | .symbol .braceClose => .stopBefore
  | .symbol .parenClose => .stopBehind
  | _ => .goOn depth

/-- To the bracket, separator or brace that ends a subexpression. -/
def subexpression (depth : Nat) : TokenKind → Verdict
  | .endOfInput | .symbol .semicolon | .symbol .braceOpen | .symbol .braceClose => .stopBefore
  | .symbol .parenOpen | .symbol .bracketOpen => .goOn (depth + 1)
  | .symbol .parenClose | .symbol .bracketClose =>
      if depth = 0 then .stopBefore else .goOn (depth - 1)
  | .symbol .comma | .symbol .dotDot => if depth = 0 then .stopBefore else .goOn depth
  | _ => .goOn depth

def invalid (depth : Nat) : TokenKind → Verdict
  | .invalid => .goOn depth
  | _ => .stopBefore

/-- The tokens that are left when a rule has passed over the others. -/
def past (rule : Nat → TokenKind → Verdict) (depth : Nat) : List Token → List Token
  | [] => []
  | token :: rest =>
      match rule depth token.kind with
      | .stopBefore => token :: rest
      | .stopBehind => rest
      | .goOn depth => past rule depth rest

theorem past_suffix (rule : Nat → TokenKind → Verdict) (depth : Nat) (tokens : List Token) :
    past rule depth tokens <:+ tokens := by
  fun_induction past rule depth tokens with
  | case1 => exact List.suffix_refl []
  | case2 => exact List.suffix_refl _
  | case3 => exact List.suffix_cons _ _
  | case4 _ token rest _ _ ih => exact ih.trans (List.suffix_cons token rest)

end Skip

/-- Passes over tokens without reading them. -/
def Parser.skip (rule : Nat → TokenKind → Skip.Verdict) : Parser Unit where
  run _ tokens := ⟨(), Skip.past rule 0 tokens, []⟩
  rest_suffix _ tokens := Skip.past_suffix rule 0 tokens

end WireSpec
