import WireSpec.Text.Printable
/-!
# Quoted text

Three ways to write text so that every character of it can be seen: between double quotes for a
reader, as a JSON string, and a single character inside a message.
-/

namespace WireSpec.Text

def lowerHex (n : Nat) : String := String.ofList (Nat.toDigits 16 n)

def codePoint (c : Char) : String := "\\u\x7b" ++ lowerHex c.toNat ++ "\x7d"

def quotedChar (c : Char) : String :=
  match c with
  | '\x00' => "\\0"
  | '\t' => "\\t"
  | '\r' => "\\r"
  | '\n' => "\\n"
  | '\\' => "\\\\"
  | '"' => "\\\""
  | _ => if isPrintable c then c.toString else codePoint c

/-- Text between double quotes, with all that cannot be seen written as an escape. -/
def quoted (text : String) : String :=
  "\"" ++ String.join (text.toList.map quotedChar) ++ "\""

/-- A character as messages name it: printable ASCII as it is, all else as an escape. -/
def namedChar (c : Char) : String :=
  match c with
  | '\t' => "\\t"
  | '\r' => "\\r"
  | '\n' => "\\n"
  | '\\' => "\\\\"
  | '\'' => "\\'"
  | '"' => "\\\""
  | _ => if 0x20 ≤ c.toNat ∧ c.toNat ≤ 0x7E then c.toString else codePoint c

def jsonChar (c : Char) : String :=
  match c with
  | '"' => "\\\""
  | '\\' => "\\\\"
  | '\x08' => "\\b"
  | '\x0c' => "\\f"
  | '\n' => "\\n"
  | '\r' => "\\r"
  | '\t' => "\\t"
  | _ =>
      if c.toNat < 0x10 then "\\u000" ++ lowerHex c.toNat
      else if c.toNat < 0x20 then "\\u00" ++ lowerHex c.toNat
      else c.toString

def jsonString (text : String) : String :=
  "\"" ++ String.join (text.toList.map jsonChar) ++ "\""

end WireSpec.Text
