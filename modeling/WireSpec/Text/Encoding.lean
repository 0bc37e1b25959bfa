import WireSpec.ByteOrder
/-!
# Text encodings

Each encoding is a pair of partial functions between strings and byte sequences: `decode` is
defined on the sequences that stand for a text, and `encode` on the texts that it can write.
-/

namespace WireSpec.Text

inductive Encoding where
  | utf8
  | ascii
  | latin1
  | utf16 (order : ByteOrder)
  deriving DecidableEq, Repr

namespace Encoding

def name : Encoding → String
  | utf8 => "utf-8"
  | ascii => "ascii"
  | latin1 => "latin1"
  | utf16 .little => "utf-16le"
  | utf16 .big => "utf-16be"

/-- Names are compared without regard to the case of ASCII letters. -/
def ofName? (word : String) : Option Encoding :=
  match String.ofList (word.toList.map Char.toLower) with
  | "utf8" | "utf-8" => some utf8
  | "ascii" | "us-ascii" => some ascii
  | "latin1" | "iso-8859-1" | "iso88591" => some latin1
  | "utf16le" | "utf-16le" => some (utf16 .little)
  | "utf16be" | "utf-16be" => some (utf16 .big)
  | _ => none

end Encoding

def utf8Bytes (s : String) : Bytes := s.toUTF8.data.toList

def utf8Text? (raw : Bytes) : Option String := String.fromUTF8? ⟨raw.toArray⟩

/-- One byte per character, the byte being the code point; `bound` is the first code point that
cannot be written. -/
def encodeSingle (bound : Nat) (text : List Char) : Option Bytes :=
  if text.all fun c => decide (c.toNat < bound) then
    some (text.map fun c => UInt8.ofNat c.toNat)
  else none

def decodeSingle (bound : Nat) (raw : Bytes) : Option (List Char) :=
  if raw.all fun b => decide (b.toNat < bound) then
    some (raw.map fun b => Char.ofNat b.toNat)
  else none

/-- The UTF-16 code units of a character: one, or a high and a low surrogate. -/
def charUnits (c : Char) : List Nat :=
  if c.toNat < 0x10000 then [c.toNat]
  else [0xD800 + (c.toNat - 0x10000) / 0x400, 0xDC00 + (c.toNat - 0x10000) % 0x400]

def isHighSurrogate (u : Nat) : Bool := decide (0xD800 ≤ u ∧ u < 0xDC00)

def isLowSurrogate (u : Nat) : Bool := decide (0xDC00 ≤ u ∧ u < 0xE000)

/-- A surrogate that is not part of a pair stands for no character. -/
def unitsText? : List Nat → Option (List Char)
  | [] => some []
  | [u] =>
      if isHighSurrogate u || isLowSurrogate u then none else some [Char.ofNat u]
  | u :: v :: rest =>
      if isHighSurrogate u then
        if isLowSurrogate v then
          (unitsText? rest).map (Char.ofNat (0x10000 + (u - 0xD800) * 0x400 + (v - 0xDC00)) :: ·)
        else none
      else if isLowSurrogate u then none
      else (unitsText? (v :: rest)).map (Char.ofNat u :: ·)

/-- Two bytes make a code unit; an odd byte is left over by no text. -/
def byteUnits? (order : ByteOrder) : Bytes → Option (List Nat)
  | [] => some []
  | [_] => none
  | a :: b :: rest => (byteUnits? order rest).map (order.read [a, b] :: ·)

namespace Encoding

def decode (e : Encoding) (raw : Bytes) : Option String :=
  match e with
  | utf8 => utf8Text? raw
  | ascii => (decodeSingle 0x80 raw).map String.ofList
  | latin1 => (decodeSingle 0x100 raw).map String.ofList
  | utf16 order => ((byteUnits? order raw).bind unitsText?).map String.ofList

def encode (e : Encoding) (s : String) : Option Bytes :=
  match e with
  | utf8 => some (utf8Bytes s)
  | ascii => encodeSingle 0x80 s.toList
  | latin1 => encodeSingle 0x100 s.toList
  | utf16 order => some ((s.toList.flatMap charUnits).flatMap (order.write 2))

end Encoding

end WireSpec.Text
