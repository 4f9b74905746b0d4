import InfixArith.Text.Blank
import InfixArith.Text.Bytes
import InfixArith.Text.Token
import InfixArith.Text.Unprintable
import InfixArith.Text.Quoted
import InfixArith.Binary64
import InfixArith.Numeral
import InfixArith.Decimal.Shortest
import InfixArith.Decimal.NumberStyle
import InfixArith.Expr.Basic
import InfixArith.Table.Basic
import InfixArith.Table.Match
import InfixArith.Expr.Format
import InfixArith.Expr.Export
import InfixArith.Reading.Reply
import InfixArith.Reading.Levels
import InfixArith.Reading.Error
import InfixArith.Trace
import InfixArith.Reading.Calls
import InfixArith.Rounding.Fixed
import InfixArith.Rounding.SignificantFigures
import InfixArith.Answer
import InfixArith.Session
import InfixArith.CommandLine
import InfixArith.Main
import InfixArith.Proofs.Text.Bytes
import InfixArith.Proofs.Session.Output
import InfixArith.Proofs.Binary64.Bits
import InfixArith.Proofs.Binary64.Nearest
import InfixArith.Proofs.Binary64.Closest
import InfixArith.Proofs.Decimal.Shortest
import InfixArith.Proofs.Decimal.Fewest
import InfixArith.Proofs.Numeral.Scan
import InfixArith.Proofs.Decimal.NumberStyle
import InfixArith.Proofs.Table.Levels
import InfixArith.Proofs.Table.Match
import InfixArith.Proofs.Table.Valid
import InfixArith.Proofs.Table.Refusal
import InfixArith.Proofs.Table.Represents
import InfixArith.Proofs.Table.Rearranged
import InfixArith.Proofs.Reading.Equations
import InfixArith.Proofs.Reading.Steps
import InfixArith.Proofs.Reading.Alike
import InfixArith.Proofs.Reading.Calls
import InfixArith.Proofs.Reading.Places
import InfixArith.Proofs.Reading.Reuse
import InfixArith.Proofs.Limits.Raising
import InfixArith.Proofs.Limits.Exact
import InfixArith.Proofs.Limits.Calls
import InfixArith.Proofs.Reading.Rearranged
import InfixArith.Proofs.Grammar.Derivation
import InfixArith.Proofs.Grammar.Soundness
import InfixArith.Proofs.Grammar.Completeness
import InfixArith.Proofs.Grammar.Arithmetic
import InfixArith.Proofs.Format.Lexemes
import InfixArith.Proofs.Numeral.Pattern
import InfixArith.Proofs.Format.RoundTrip
import InfixArith.Proofs.Format.Minimal
import InfixArith.Proofs.Format.Literal
import InfixArith.Proofs.Format.Reformat
import InfixArith.Proofs.Reading.Blanks
import InfixArith.Proofs.Reading.Trim
import InfixArith.Proofs.Reading.Message
import InfixArith.Proofs.Format.Distinct
import InfixArith.Proofs.Session.Reply
import InfixArith.Proofs.Session.OneShot
import InfixArith.Proofs.Session.Transcript
import InfixArith.Proofs.Reading.Truthful
import InfixArith.Proofs.Reading.Layout
import InfixArith.Proofs.Grammar.Viable
import InfixArith.Proofs.Format.Usable
import InfixArith.Proofs.Numeral.FirstMatch
import InfixArith.Proofs.Format.Export
import InfixArith.Proofs.Reading.Nested
import InfixArith.Proofs.Reading.Rightward
import InfixArith.Proofs.Reading.Guarded
import InfixArith.Proofs.Reading.Operator
import InfixArith.Proofs.Binary64.CutOff
import InfixArith.Proofs.Binary64.Arithmetic
import InfixArith.Proofs.Binary64.Roundings
import InfixArith.Proofs.Rounding.Figures
import InfixArith.Proofs.Rounding.Conversion
import InfixArith.Proofs.Rounding.ToFloat
import InfixArith.Proofs.Rounding.AsDecimal
