import WireSpec.Token
import WireSpec.Text.Blank
import WireSpec.Text.Numeral
import WireSpec.Text.Quoted
/-!
# Pieces of a definition text

A text is cut into pieces from left to right: blanks, comments and tokens.  `Piece.read` says how
far the piece that begins at a character reaches, which token it is, if any, and what is wrong with
it.  A piece takes its first character and `extra` more, so it is never empty.
-/

namespace WireSpec

/-- The literals that stand between quotes. -/
inductive QuotedLiteral where
  | string
  | char
  deriving DecidableEq, Repr

def QuotedLiteral.name : QuotedLiteral → String
  | string => "string"
  | char => "char"

inductive LexicalError where
  | unclosedComment
  | missingDigits (base : String)
  | malformedInteger (text : String)
  | integerTooLarge (text : String)
  | unknownEscape (c : Char) (literal : QuotedLiteral)
  | unterminatedString
  | emptyChar
  | unterminatedChar
  | unexpectedCharacter (c : Char)
  deriving DecidableEq, Repr

def LexicalError.message : LexicalError → String
  | unclosedComment => "unclosed comment"
  | missingDigits base => "missing digits after base prefix '" ++ base ++ "'"
  | malformedInteger text => "malformed integer literal '" ++ text ++ "'"
  | integerTooLarge text => "integer literal '" ++ text ++ "' does not fit in 64 bits"
  | unknownEscape c literal =>
      "unknown escape sequence '\\" ++ c.toString ++ "' in " ++ literal.name ++ " literal"
  | unterminatedString => "unterminated string literal"
  | emptyChar => "empty char literal"
  | unterminatedChar => "unterminated char literal"
  | unexpectedCharacter c => "unexpected character '" ++ Text.namedChar c ++ "'"

/-- A problem stands so many characters behind the beginning of its piece. -/
structure Piece where
  extra : Nat
  kind : Option TokenKind
  problems : List (Nat × LexicalError) := []

namespace Piece

def gap (extra : Nat) : Piece := { extra, kind := none }

def token (extra : Nat) (kind : TokenKind) : Piece := { extra, kind := some kind }

/-- Text that should have been a token; the problem is with its beginning. -/
def malformed (extra : Nat) (error : LexicalError) : Piece :=
  { extra, kind := some .invalid, problems := [(0, error)] }

/-! ### Comments -/

/-- How many characters close `depth` open comments. -/
def commentLength? : Nat → List Char → Option Nat
  | 0, _ => some 0
  | _ + 1, [] => none
  | depth + 1, '/' :: '*' :: rest => (commentLength? (depth + 2) rest).map (· + 2)
  | depth + 1, '*' :: '/' :: rest => (commentLength? depth rest).map (· + 2)
  | depth + 1, _ :: rest => (commentLength? (depth + 1) rest).map (· + 1)

/-- The comment whose first two characters are `/*`, the text behind them given. -/
def blockComment (rest : List Char) : Piece :=
  match commentLength? 1 rest with
  | some n => gap (1 + n)
  | none => { extra := 1 + rest.length, kind := none, problems := [(0, .unclosedComment)] }

def lineComment (rest : List Char) : Piece :=
  gap (1 + (rest.takeWhile (· != '\n')).length)

/-! ### Words and numbers -/

def isWordChar (c : Char) : Bool := c.isAlphanum || c == '_'

def word (c : Char) (rest : List Char) : Piece :=
  let tail := rest.takeWhile isWordChar
  let text := String.ofList (c :: tail)
  token tail.length
    (match Keyword.ofWord? text with
    | some keyword => .keyword keyword
    | none => .identifier text)

def word64? (n : Nat) : Option UInt64 :=
  if n < UInt64.size then some (UInt64.ofNat n) else none

def baseOf? : Char → Option Nat
  | 'x' | 'X' => some 16
  | 'b' | 'B' => some 2
  | 'o' | 'O' => some 8
  | _ => none

/-- An integer that begins with a zero and the letter of its base. -/
def basedInteger (letter : Char) (base : Nat) (rest : List Char) : Piece :=
  let digits := rest.takeWhile Char.isAlphanum
  let extra := 1 + digits.length
  if digits.isEmpty then malformed extra (.missingDigits (String.ofList ['0', letter]))
  else
    match (Text.numeral? base digits).bind word64? with
    | some value => token extra (.integer value)
    | none => malformed extra (.malformedInteger (String.ofList ('0' :: letter :: digits)))

/-- A point belongs to a number only if a digit follows it: `1..5` is a range. -/
def fractionDigits : List Char → List Char
  | '.' :: rest => rest.takeWhile Char.isDigit
  | _ => []

/-- Sign and digits of an exponent, where there are digits. -/
def exponentDigits : List Char → Option (List Char × List Char)
  | [] => none
  | e :: rest =>
      if e = 'e' || e = 'E' then
        let sign := (rest.take 1).filter fun s => s == '+' || s == '-'
        let digits := (rest.drop sign.length).takeWhile Char.isDigit
        if digits.isEmpty then none else some (sign, digits)
      else none

/-- A number that begins with the given digit. -/
def decimalNumber (c : Char) (rest : List Char) : Piece :=
  let whole := rest.takeWhile Char.isDigit
  let behindWhole := rest.drop whole.length
  let fraction := fractionDigits behindWhole
  let fractionLength := if fraction.isEmpty then 0 else 1 + fraction.length
  let exponent := exponentDigits (behindWhole.drop fractionLength)
  let digitsValue := (c :: whole ++ fraction).foldl (fun n d => n * 10 + Text.digitValue d) 0
  match exponent with
  | some (sign, digits) =>
      let scale : Int := digits.foldl (fun n d => n * 10 + Text.digitValue d) 0
      let scale := if sign = ['-'] then -scale else scale
      token (whole.length + fractionLength + 1 + sign.length + digits.length)
        (.float (Binary.ofDecimal digitsValue (scale - fraction.length)))
  | none =>
      if fraction.isEmpty then
        match word64? digitsValue with
        | some value => token whole.length (.integer value)
        | none => malformed whole.length (.integerTooLarge (String.ofList (c :: whole)))
      else
        token (whole.length + fractionLength)
          (.float (Binary.ofDecimal digitsValue (-fraction.length)))

def number (c : Char) (rest : List Char) : Piece :=
  match rest with
  | letter :: behind =>
      match if c = '0' then baseOf? letter else none with
      | some base => basedInteger letter base behind
      | none => decimalNumber c rest
  | [] => decimalNumber c rest

/-! ### Text in quotes -/

/-- The character that an escape sequence stands for. -/
def unescape? : Char → Option Char
  | 'n' => some '\n'
  | 'r' => some '\r'
  | 't' => some '\t'
  | '0' => some '\x00'
  | '\\' => some '\\'
  | '"' => some '"'
  | '\'' => some '\''
  | _ => none

/-- The problem with an escape sequence whose character behind the backslash stands at `offset`.
An unknown sequence stands for that character itself. -/
def escapeProblem (offset : Nat) (c : Char) (literal : QuotedLiteral) :
    List (Nat × LexicalError) :=
  match unescape? c with
  | some _ => []
  | none => [(offset, .unknownEscape c literal)]

/-- What follows the opening quote of a string: its contents and where the string ends, as far as
there is a closing quote. -/
structure StringBody where
  contents : List Char
  stop : Nat
  closed : Bool
  problems : List (Nat × LexicalError)

/-- Reads the body of a string from `offset` characters behind its opening quote. -/
def stringBody (offset : Nat) : List Char → StringBody
  | [] => ⟨[], offset, false, []⟩
  | '"' :: _ => ⟨[], offset + 1, true, []⟩
  | ['\\'] => ⟨[], offset + 1, false, []⟩
  | '\\' :: c :: rest =>
      let body := stringBody (offset + 2) rest
      { body with
        contents := (unescape? c).getD c :: body.contents
        problems := escapeProblem (offset + 1) c .string ++ body.problems }
  | c :: rest =>
      let body := stringBody (offset + 1) rest
      { body with contents := c :: body.contents }

def string (rest : List Char) : Piece :=
  let body := stringBody 1 rest
  if body.closed then
    { extra := body.stop - 1
      kind := some (.string (String.ofList body.contents))
      problems := body.problems }
  else
    { extra := body.stop - 1
      kind := some .invalid
      problems := body.problems ++ [(0, .unterminatedString)] }

/-- A character literal of which `taken` characters are read and whose value is known, the text
behind them given. -/
def closeChar (taken : Nat) (value : Char) (problems : List (Nat × LexicalError)) :
    List Char → Piece
  | '\'' :: _ => { extra := taken, kind := some (.char value), problems }
  | _ =>
      { extra := taken - 1
        kind := some .invalid
        problems := problems ++ [(0, .unterminatedChar)] }

/-- A character literal ends on its line; a line break in place of the character is taken with
it. -/
def charLiteral : List Char → Piece
  | [] => malformed 0 .unterminatedChar
  | '\n' :: _ => malformed 1 .unterminatedChar
  | '\'' :: _ => malformed 1 .emptyChar
  | ['\\'] => malformed 1 .unterminatedChar
  | '\\' :: c :: rest => closeChar 3 ((unescape? c).getD c) (escapeProblem 2 c .char) rest
  | c :: rest => closeChar 2 c [] rest

/-! ### All together -/

def symbol (c : Char) (rest : List Char) : Piece :=
  match rest.head?.bind (Symbol.ofChars? c) with
  | some s => token 1 (.symbol s)
  | none =>
      match Symbol.ofChar? c with
      | some s => token 0 (.symbol s)
      | none => malformed 0 (.unexpectedCharacter c)

/-- The piece that begins with a character. -/
def read (c : Char) (rest : List Char) : Piece :=
  if Text.isBlank c then gap 0
  else if c.isDigit then number c rest
  else if c.isAlpha || c == '_' then word c rest
  else
    match c, rest with
    | '/', '/' :: behind => lineComment behind
    | '/', '*' :: behind => blockComment behind
    | '"', _ => string rest
    | '\'', _ => charLiteral rest
    | _, _ => symbol c rest

end Piece

end WireSpec
