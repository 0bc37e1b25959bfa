import WireSpec.Position
import WireSpec.Scalar
import WireSpec.Decimal.Layout
/-!
# Tokens

The words and signs of a definition text.  Every word that is not a keyword is an identifier; the
eight modifier keywords may also be used as names, which is what `TokenKind.name?` says.
-/

namespace WireSpec

/-- Keywords that name a field modifier, such as `range(0, 9)`. -/
inductive ModifierWord where
  | validate | range | endian | length | encoding | format | display | color
  deriving DecidableEq, Repr

namespace ModifierWord

def word : ModifierWord → String
  | validate => "validate"
  | range => "range"
  | endian => "endian"
  | length => "length"
  | encoding => "encoding"
  | format => "format"
  | display => "display"
  | color => "color"

def all : List ModifierWord :=
  [validate, range, endian, length, encoding, format, display, color]

end ModifierWord

/-- Keywords without a meaning, which cannot be used as names. -/
inductive ReservedWord where
  | breakWord | continueWord | ifWord | elseWord | forWord | whileWord | returnWord
  deriving DecidableEq, Repr

namespace ReservedWord

def word : ReservedWord → String
  | breakWord => "break"
  | continueWord => "continue"
  | ifWord => "if"
  | elseWord => "else"
  | forWord => "for"
  | whileWord => "while"
  | returnWord => "return"

def all : List ReservedWord :=
  [breakWord, continueWord, ifWord, elseWord, forWord, whileWord, returnWord]

end ReservedWord

inductive Keyword where
  | protocol | message | enum | parser | when | importFile | asAlias | extendsBase | optional
  | trueValue | falseValue | nullValue
  | modifier (word : ModifierWord)
  | reserved (word : ReservedWord)
  | type (type : ScalarType)
  deriving DecidableEq, Repr

namespace Keyword

def word : Keyword → String
  | protocol => "protocol"
  | message => "message"
  | enum => "enum"
  | parser => "parser"
  | when => "when"
  | importFile => "import"
  | asAlias => "as"
  | extendsBase => "extends"
  | optional => "optional"
  | trueValue => "true"
  | falseValue => "false"
  | nullValue => "null"
  | modifier w => w.word
  | reserved w => w.word
  | type t => t.name

def all : List Keyword :=
  [protocol, message, enum, parser, when, importFile, asAlias, extendsBase, optional,
    trueValue, falseValue, nullValue] ++
  ModifierWord.all.map modifier ++ ReservedWord.all.map reserved ++ ScalarType.all.map type

def ofWord? (w : String) : Option Keyword :=
  all.find? (·.word = w)

/-- The name that a modifier keyword stands for where a name is expected. -/
def modifierName? : Keyword → Option String
  | modifier w => some w.word
  | _ => none

end Keyword

inductive Symbol where
  | braceOpen | braceClose | parenOpen | parenClose | bracketOpen | bracketClose
  | comma | semicolon | colon | dot | dotDot | assign
  | equal | notEqual | less | lessEqual | greater | greaterEqual
  | plus | minus | star | slash | percent | bang | tilde
  | amp | ampAmp | pipe | pipePipe | caret | shiftLeft | shiftRight | arrow
  deriving DecidableEq, Repr

namespace Symbol

def text : Symbol → String
  | braceOpen => "\x7b"
  | braceClose => "\x7d"
  | parenOpen => "("
  | parenClose => ")"
  | bracketOpen => "["
  | bracketClose => "]"
  | comma => ","
  | semicolon => ";"
  | colon => ":"
  | dot => "."
  | dotDot => ".."
  | assign => "="
  | equal => "=="
  | notEqual => "!="
  | less => "<"
  | lessEqual => "<="
  | greater => ">"
  | greaterEqual => ">="
  | plus => "+"
  | minus => "-"
  | star => "*"
  | slash => "/"
  | percent => "%"
  | bang => "!"
  | tilde => "~"
  | amp => "&"
  | ampAmp => "&&"
  | pipe => "|"
  | pipePipe => "||"
  | caret => "^"
  | shiftLeft => "<<"
  | shiftRight => ">>"
  | arrow => "->"

def ofChar? : Char → Option Symbol
  | '\x7b' => some braceOpen
  | '\x7d' => some braceClose
  | '(' => some parenOpen
  | ')' => some parenClose
  | '[' => some bracketOpen
  | ']' => some bracketClose
  | ',' => some comma
  | ';' => some semicolon
  | ':' => some colon
  | '.' => some dot
  | '=' => some assign
  | '<' => some less
  | '>' => some greater
  | '+' => some plus
  | '-' => some minus
  | '*' => some star
  | '/' => some slash
  | '%' => some percent
  | '!' => some bang
  | '~' => some tilde
  | '&' => some amp
  | '|' => some pipe
  | '^' => some caret
  | _ => none

def ofChars? : Char → Char → Option Symbol
  | '=', '=' => some equal
  | '!', '=' => some notEqual
  | '>', '=' => some greaterEqual
  | '<', '=' => some lessEqual
  | '&', '&' => some ampAmp
  | '|', '|' => some pipePipe
  | '<', '<' => some shiftLeft
  | '>', '>' => some shiftRight
  | '-', '>' => some arrow
  | '.', '.' => some dotDot
  | _, _ => none

end Symbol

/-- Integers have no sign: a minus before one is a symbol of its own. -/
inductive TokenKind where
  | identifier (name : String)
  | keyword (word : Keyword)
  | symbol (symbol : Symbol)
  | integer (value : UInt64)
  | float (value : Float)
  | string (value : String)
  | char (value : Char)
  /-- Text that is no token; the problem with it has been reported. -/
  | invalid
  | endOfInput
  deriving DecidableEq

namespace TokenKind

/-- How messages speak of the token. -/
def shown : TokenKind → String
  | identifier name => "identifier '" ++ name ++ "'"
  | keyword (.type t) => "type '" ++ t.name ++ "'"
  | keyword w => "keyword '" ++ w.word ++ "'"
  | symbol s => "'" ++ s.text ++ "'"
  | integer n => "integer " ++ toString n.toNat
  | float x => "float " ++ Decimal.floatText x
  | string _ => "string literal"
  | char _ => "char literal"
  | invalid => "invalid token"
  | endOfInput => "end of input"

def name? : TokenKind → Option String
  | identifier name => some name
  | keyword w => w.modifierName?
  | _ => none

end TokenKind

/-- A token with the text it stands for and where that text begins. -/
structure Token where
  kind : TokenKind
  text : String
  position : Position
  deriving DecidableEq

end WireSpec
