import InfixArith.Decimal.NumberStyle
import InfixArith.Reading.Reply
import InfixArith.Table.Basic
import InfixArith.Text.Bytes
import InfixArith.Text.Quoted

/-!
# Trace — the diary of a run

What a run remarks on its way, each event with the line of text it is recorded as.
-/

namespace InfixArith

namespace Expr

/-- An expression with its constructors spelled out, before the text `tail`. -/
def outlineBefore : Expr → List Char → List Char
  | .literal v, tail    => "Number(".toList ++ (NumberStyle.plain.text v ++ ')' :: tail)
  | .binary o l r, tail =>
    "BinaryOp \x7b op: ".toList ++ (o.name.toList ++ (", left: ".toList ++ outlineBefore l
      (", right: ".toList ++ outlineBefore r (" \x7d".toList ++ tail))))

/-- An expression with its constructors spelled out. -/
def outline (e : Expr) : List Char := outlineBefore e []

end Expr

/-- A recorded event. -/
inductive Event where
  | built (operators levels maxPrecedence : Nat)
  | level (precedence offset : Nat)
  | matched (token : String) (precedence : Nat)
  | parsed (e : Expr)
  | evaluating (line : List Char)
  | exiting
  | inputEnded

namespace Event

def line : Event → String
  | .built o l p =>
    "DEBUG built operator registry: " ++ toString o ++ " operators over " ++ toString l ++
      " levels, max precedence " ++ toString p
  | .level p o       => "TRACE level " ++ toString p ++ " at offset " ++ toString o
  | .matched token p => "TRACE matched '" ++ token ++ "' at level " ++ toString p
  | .parsed e        => "DEBUG parsed " ++ String.ofList e.outline
  | .evaluating s    => "DEBUG evaluating " ++ String.ofList (Text.quoted s)
  | .exiting         => "DEBUG exit command received"
  | .inputEnded      => "DEBUG end of input, leaving shell"

/-- The event of building a table. -/
def ofTable (t : Table) : Event := .built t.entries.length t.levels.length t.maxPrecedence

/-- The event of a note made while reading a source of `size` bytes. -/
def ofNote (size : Nat) : Note → Event
  | .level p place   => .level p (size - Text.byteSize place)
  | .matched token p => .matched token p

end Event

end InfixArith
