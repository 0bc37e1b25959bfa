/-!
# Positions in a text

A position names one character of a text three ways: by line, by column and by byte offset.
Reading a character moves the position forward; `Position.after` moves it over a whole piece of
text, so the position of any token is the start moved over all that precedes it.
-/

namespace WireSpec

/-- Lines and columns count from 1, columns in characters; offsets count UTF-8 bytes from 0. -/
structure Position where
  line : Nat
  column : Nat
  offset : Nat
  deriving DecidableEq, Repr

namespace Position

def start : Position := ⟨1, 1, 0⟩

/-- The position reported where no text is known. -/
def unknown : Position := ⟨0, 0, 0⟩

def advance (p : Position) (c : Char) : Position :=
  if c = '\n' then ⟨p.line + 1, 1, p.offset + c.utf8Size⟩
  else ⟨p.line, p.column + 1, p.offset + c.utf8Size⟩

/-- The position just behind a piece of text that begins at `p`. -/
def after (p : Position) (text : List Char) : Position :=
  text.foldl advance p

@[simp] theorem after_nil (p : Position) : p.after [] = p := rfl

@[simp] theorem after_cons (p : Position) (c : Char) (cs : List Char) :
    p.after (c :: cs) = (p.advance c).after cs := rfl

theorem after_append (p : Position) (xs ys : List Char) :
    p.after (xs ++ ys) = (p.after xs).after ys :=
  List.foldl_append

end Position

end WireSpec
