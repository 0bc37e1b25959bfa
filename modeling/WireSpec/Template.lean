import WireSpec.Text.Blank
/-!
# Display templates

A template is text with names in braces, each to be replaced by the value of that field.  A doubled
brace stands for a brace.
-/

namespace WireSpec

/-- A piece of a template; `α` is what a placeholder is bound to. -/
inductive Segment (α : Type) where
  | text (text : List Char)
  | hole (target : α)
  deriving DecidableEq, Repr

abbrev Template (α : Type) : Type := List (Segment α)

namespace Template

variable {α β ε : Type}

/-- Puts a character in front of a template, into its first piece of text. -/
def consChar (c : Char) : Template α → Template α
  | .text t :: rest => .text (c :: t) :: rest
  | rest => .text [c] :: rest

/-- Cuts text at its placeholders, whose names are taken without the blanks around them.  A brace
that is not closed is text, and so is all behind it; a single closing brace is text too. -/
def parse : List Char → Template String
  | [] => []
  | '\x7b' :: '\x7b' :: rest => consChar '\x7b' (parse rest)
  | '\x7d' :: '\x7d' :: rest => consChar '\x7d' (parse rest)
  | '\x7b' :: rest =>
      let name := rest.takeWhile (· != '\x7d')
      if name.length = rest.length then [.text ('\x7b' :: rest)]
      else .hole (String.ofList (Text.trim name)) :: parse (rest.drop (name.length + 1))
  | c :: rest => consChar c (parse rest)
termination_by text => text.length
decreasing_by all_goals (simp only [List.length_drop, List.length_cons]; omega)

def names : Template String → List String
  | [] => []
  | .text _ :: rest => names rest
  | .hole name :: rest => name :: names rest

/-- Binds every name; the first that cannot be bound is the error. -/
def bindNames (place : String → Option α) : Template String → Except String (Template α)
  | [] => .ok []
  | .text t :: rest => (bindNames place rest).map (.text t :: ·)
  | .hole name :: rest =>
      match place name with
      | some target => (bindNames place rest).map (.hole target :: ·)
      | none => .error name

def isLiteral : Template α → Bool
  | [] => true
  | .text _ :: rest => isLiteral rest
  | .hole _ :: _ => false

/-- The text with all placeholders filled in. -/
def fill (show_ : α → String) (t : Template α) : String :=
  String.join (t.map fun
    | .text s => String.ofList s
    | .hole target => show_ target)

end Template

end WireSpec
