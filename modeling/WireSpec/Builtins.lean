import WireSpec.Checksum
import WireSpec.Text.Quoted
/-!
# Built-in functions

The functions that expressions can call, by name.
-/

namespace WireSpec

abbrev Builtin : Type := Bytes → UInt64

/-- Every name occurs once. -/
structure Builtins where
  entries : List (String × Builtin)

namespace Builtins

def empty : Builtins := ⟨[]⟩

/-- Adds a function, in place of one with the same name. -/
def register (b : Builtins) (name : String) (function : Builtin) : Builtins :=
  ⟨b.entries.filter (·.1 != name) ++ [(name, function)]⟩

/-- The three checksums. -/
def standard : Builtins :=
  ⟨[("crc16", fun data => (Checksum.crc16 data).toUInt64),
    ("lrc", fun data => (Checksum.lrc data).toUInt64),
    ("crc32", fun data => (Checksum.crc32 data).toUInt64)]⟩

def find? (b : Builtins) (name : String) : Option Builtin := b.entries.lookup name

def contains (b : Builtins) (name : String) : Bool := (b.find? name).isSome

/-- All names in alphabetical order. -/
def names (b : Builtins) : List String :=
  (b.entries.map (·.1)).mergeSort fun x y => decide (x ≤ y)

def summary (b : Builtins) : String :=
  "Builtins \x7b functions: [" ++ ", ".intercalate (b.names.map Text.quoted) ++ "] \x7d"

end Builtins

end WireSpec
