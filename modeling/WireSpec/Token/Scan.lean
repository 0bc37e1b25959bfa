import WireSpec.Token.Lexeme
/-!
# Cutting a text into tokens

Scanning reads one piece after another.  Nothing stops it: text that is no token becomes an
`invalid` token with a problem beside it, and the last token is always `endOfInput`.
-/

namespace WireSpec

structure Scan where
  tokens : List Token
  problems : List (Position × LexicalError)

namespace Scan

/-- The scan of a text that begins at `p`. -/
def textFrom (p : Position) : List Char → Scan
  | [] => ⟨[⟨.endOfInput, "", p⟩], []⟩
  | c :: rest =>
      let piece := Piece.read c rest
      let text := c :: rest.take piece.extra
      let later := textFrom (p.after text) (rest.drop piece.extra)
      { tokens := (piece.kind.map fun kind => ⟨kind, String.ofList text, p⟩).toList ++ later.tokens
        problems :=
          piece.problems.map (fun (n, e) => (p.after (text.take n), e)) ++ later.problems }
termination_by text => text.length
decreasing_by simp only [List.length_drop, List.length_cons]; omega

def source (text : String) : Scan := textFrom .start text.toList

/-- A scan with problems that found no token at all. -/
def isBlocked (s : Scan) : Bool :=
  !s.problems.isEmpty && s.tokens.all fun t => t.kind == .invalid || t.kind == .endOfInput

end Scan

end WireSpec
