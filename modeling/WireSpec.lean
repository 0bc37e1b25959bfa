import WireSpec.Analysis.Binding
import WireSpec.Analysis.Enums
import WireSpec.Analysis.Fields
import WireSpec.Analysis.Message
import WireSpec.Analysis.SemanticError
import WireSpec.Binary
import WireSpec.Builtins
import WireSpec.ByteOrder
import WireSpec.Checksum
import WireSpec.Codec.CodecError
import WireSpec.Codec.Decoder
import WireSpec.Codec.Field
import WireSpec.CommandLine
import WireSpec.Compile
import WireSpec.Decimal.Layout
import WireSpec.Decimal.Shortest
import WireSpec.Diagnostic
import WireSpec.Formula
import WireSpec.Formula.Eval
import WireSpec.Int128
import WireSpec.Main
import WireSpec.Operand
import WireSpec.Operator
import WireSpec.Plan
import WireSpec.Position
import WireSpec.Proofs.Checksum.Detection
import WireSpec.Proofs.Checksum.Register
import WireSpec.Proofs.Codec.Annotation
import WireSpec.Proofs.Codec.Evaluations
import WireSpec.Proofs.Codec.FieldBytes
import WireSpec.Proofs.Codec.FieldValues
import WireSpec.Proofs.Codec.FixedSize
import WireSpec.Proofs.Codec.Integers
import WireSpec.Proofs.Codec.Keys
import WireSpec.Proofs.Codec.Layout
import WireSpec.Proofs.Codec.Machine
import WireSpec.Proofs.Codec.Occupation
import WireSpec.Proofs.Codec.Reencoding
import WireSpec.Proofs.Codec.Rereading
import WireSpec.Proofs.Codec.RoundTrip
import WireSpec.Proofs.Codec.Shortage
import WireSpec.Proofs.Codec.Texts
import WireSpec.Proofs.Codec.Trailer
import WireSpec.Proofs.Codec.Writing
import WireSpec.Proofs.Display.Numerals
import WireSpec.Proofs.Display.Templates
import WireSpec.Proofs.Formula.Arithmetic
import WireSpec.Proofs.Formula.Comparison
import WireSpec.Proofs.Formula.Folding
import WireSpec.Proofs.Formula.Identifiers
import WireSpec.Proofs.Formula.Machine
import WireSpec.Proofs.Formula.Places
import WireSpec.Proofs.Formula.Slices
import WireSpec.Proofs.Names.Ambiguity
import WireSpec.Proofs.Names.Misspelled
import WireSpec.Proofs.Names.Misspelling
import WireSpec.Proofs.Names.Problems
import WireSpec.Proofs.Names.Qualified
import WireSpec.Proofs.Names.Replacing
import WireSpec.Proofs.Names.Table
import WireSpec.Proofs.Plan.Inheritance
import WireSpec.Proofs.Plan.Lineage
import WireSpec.Proofs.Plan.Planned
import WireSpec.Proofs.Plan.Reordering
import WireSpec.Proofs.Plan.Ruled
import WireSpec.Proofs.Plan.Widths
import WireSpec.Proofs.Schema.Balance
import WireSpec.Proofs.Schema.Completeness
import WireSpec.Proofs.Schema.Counting
import WireSpec.Proofs.Schema.Declared
import WireSpec.Proofs.Schema.Following
import WireSpec.Proofs.Schema.Grammar
import WireSpec.Proofs.Schema.Height
import WireSpec.Proofs.Schema.Ordering
import WireSpec.Proofs.Schema.Placeholders
import WireSpec.Proofs.Schema.Printed
import WireSpec.Proofs.Schema.Printing
import WireSpec.Proofs.Schema.Progress
import WireSpec.Proofs.Schema.Reading
import WireSpec.Proofs.Schema.Recovery
import WireSpec.Proofs.Schema.Resumption
import WireSpec.Proofs.Schema.Runs
import WireSpec.Proofs.Schema.Soundness
import WireSpec.Proofs.Schema.Stages
import WireSpec.Proofs.Schema.Tallest
import WireSpec.Proofs.Text.Hexadecimal
import WireSpec.Proofs.Token.Gaps
import WireSpec.Proofs.Token.Ordering
import WireSpec.Proofs.Token.Spelling
import WireSpec.Proofs.Token.Tiling
import WireSpec.Scalar
import WireSpec.Schema
import WireSpec.Schema.Declaration
import WireSpec.Schema.Expression
import WireSpec.Schema.Parser
import WireSpec.Schema.Skip
import WireSpec.Schema.SyntaxError
import WireSpec.Template
import WireSpec.Text.Blank
import WireSpec.Text.Encoding
import WireSpec.Text.Hex
import WireSpec.Text.Numeral
import WireSpec.Text.Printable
import WireSpec.Text.Quoted
import WireSpec.Token
import WireSpec.Token.Lexeme
import WireSpec.Token.Scan
import WireSpec.Value
import WireSpec.ValueFormat
