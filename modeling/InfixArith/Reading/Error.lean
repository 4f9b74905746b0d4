import InfixArith.Reading.Reply
import InfixArith.Text.Bytes

/-!
# Reading — errors

A fault as it is reported: with byte offsets into the source text, the text quoted, and the limit
that was reached.
-/

namespace InfixArith

/-- How deep expressions may go. -/
structure Limits where
  /-- How many parentheses may be open at once. -/
  maxNesting : Nat := 128
  /-- How many operations may lie on one path of a tree. -/
  maxHeight : Nat := 1024
  deriving DecidableEq

namespace Limits

/-- The limits that hold unless others are set. -/
def usual : Limits := {}

end Limits

/-- Why a source text is no expression; offsets are in bytes. -/
inductive ParseError where
  | unexpectedEnd (expected : Expectation)
  | expectedClosing (found : Char) (offset : Nat)
  | invalidNumber (found : String) (offset : Nat)
  | trailingInput (rest : String) (offset : Nat)
  | ambiguousChain (token : String) (offset : Nat)
  | nestingTooDeep (limit : Nat) (offset : Nat)
  | treeTooDeep (limit : Nat) (offset : Nat)
  deriving DecidableEq

namespace Expectation

def describe : Expectation → String
  | .operand => "a number or '('"
  | .closing => "')'"

end Expectation

namespace ParseError

def message : ParseError → String
  | .unexpectedEnd x => "Unexpected end of input, expected " ++ x.describe
  | .expectedClosing found p =>
    "Expected ')', got '" ++ found.toString ++ "' at position " ++ toString p
  | .invalidNumber found p => "Invalid number at position " ++ toString p ++ ": '" ++ found ++ "'"
  | .trailingInput rest p =>
    "Syntax error: didn't reach end of input, unconsumed '" ++ rest ++ "' at position " ++
      toString p
  | .ambiguousChain token p =>
    "Parentheses are required to chain '" ++ token ++ "' at position " ++ toString p
  | .nestingTooDeep limit p =>
    "Parentheses nested more than " ++ toString limit ++ " deep at position " ++ toString p
  | .treeTooDeep limit p =>
    "Expression nests more than " ++ toString limit ++ " operations deep at position " ++ toString p

end ParseError

namespace Fault

/-- How many characters of a text that is no operand are quoted. -/
def quotedLength : Nat := 16

/-- A fault in a source of `size` bytes, as it is reported under `limits`. -/
def report (limits : Limits) (size : Nat) : Fault → ParseError
  | .endOfText x             => .unexpectedEnd x
  | .unclosed found place    => .expectedClosing found (size - Text.byteSize place)
  | .notOperand place        =>
    .invalidNumber (String.ofList (place.take quotedLength)) (size - Text.byteSize place)
  | .trailing place          => .trailingInput (String.ofList place) (size - Text.byteSize place)
  | .chained token place     => .ambiguousChain token (size - Text.byteSize place)
  | .nestingTooDeep place    => .nestingTooDeep limits.maxNesting (size - Text.byteSize place)
  | .treeTooDeep place       => .treeTooDeep limits.maxHeight (size - Text.byteSize place)

end Fault

end InfixArith
