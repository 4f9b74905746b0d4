import InfixArith.Expr.Export
import InfixArith.Expr.Format
import InfixArith.Reading.Calls
import InfixArith.Rounding.SignificantFigures

/-!
# Answer — one expression answered

What is asked of one expression is its rounded value, its text with the fewest parentheses, or its
tree.  `Failure` holds whatever can keep an answer from being given.
-/

namespace InfixArith

/-- Why there is no answer. -/
inductive Failure where
  | parse (e : ParseError)
  | json (cause : String)
  | io (cause : String)
  | usage (cause : String)
  deriving DecidableEq

namespace Failure

def message : Failure → String
  | .parse e => "Parse error: " ++ e.message
  | .json c  => "JSON error: " ++ c
  | .io c    => "IO error: " ++ c
  | .usage c => "Invalid CLI arguments: " ++ c

/-- The text of the error underneath, if there is one. -/
def source? : Failure → Option String
  | .parse e => some e.message
  | .json c  => some c
  | .io c    => some c
  | .usage _ => none

end Failure

/-- What is asked of an expression. -/
inductive Question where
  | value
  | format
  | tree
  deriving DecidableEq

inductive Answer where
  | value (v : Float)
  | formatted (text : List Char)
  | tree (e : Expr)

namespace Answer

/-- The answer for `e`, values rounded to `figures` significant figures. -/
def ofExpr (figures : Nat) (e : Expr) : Question → Answer
  | .value  => .value (Rounding.round e.evaluate figures)
  | .format => .formatted (e.format Table.arithmetic)
  | .tree   => .tree e

def text : Answer → List Char
  | .value v     => NumberStyle.display.text v
  | .formatted s => s
  | .tree e      => e.exportText .pretty

/-- The source read with the arithmetic table and the usual limits. -/
def reading (source : List Char) : Reading := .ofSource Table.arithmetic .usual source

/-- The answer for the expression that a source text stands for. -/
def ofSource (figures : Nat) (question : Question) (source : List Char) :
    Except Failure Answer :=
  match (reading source).result with
  | .ok e    => .ok (ofExpr figures e question)
  | .error e => .error (.parse e)

end Answer

end InfixArith
