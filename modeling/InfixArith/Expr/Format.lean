import InfixArith.Decimal.NumberStyle
import InfixArith.Table.Basic

/-!
# Expr — source text

An expression is written with the tokens of a table, one space on either side, and only the
parentheses without which it would be read as another tree: around an operation that binds more
loosely than the one it is an operand of, and around one of the same level on the side to which the
level does not group.  An operator that the table lacks is written as a function.
-/

namespace InfixArith

namespace Text

/-- Puts what `body` writes before a text in parentheses, if they are needed. -/
def parenthesizeIf (needed : Bool) (body : List Char → List Char) (tail : List Char) :
    List Char :=
  if needed then '(' :: body (')' :: tail) else body tail

end Text

namespace Expr

/-- Whether `e` needs parentheses as the operand on `side` of an operation with the precedence and
associativity `outer`; `none` is no operation. -/
def needsParens (t : Table) (outer : Option (Nat × Associativity)) (side : Side) (e : Expr) :
    Bool :=
  match e.operator?.bind t.find?, outer with
  | some inner, some (p, a) => p < inner.precedence || (inner.precedence = p && a.parensOnTie side)
  | _, _                    => false

/-- The source text of an expression, before the text `tail`. -/
def formatBefore (t : Table) : Expr → List Char → List Char
  | .literal v, tail    => NumberStyle.display.text v ++ tail
  | .binary o l r, tail =>
    match t.find? o with
    | some e =>
      let outer := some (e.precedence, e.associativity)
      Text.parenthesizeIf (needsParens t outer .left l) (formatBefore t l)
        (' ' :: (e.token.toList ++ ' ' ::
          Text.parenthesizeIf (needsParens t outer .right r) (formatBefore t r) tail))
    | none   =>
      o.name.toList ++ '(' :: formatBefore t l (',' :: ' ' :: formatBefore t r (')' :: tail))

/-- The source text of an expression. -/
def format (t : Table) (e : Expr) : List Char := formatBefore t e []

/-- The source text of an expression as an operand. -/
def formatOperand (t : Table) (outer : Option (Nat × Associativity)) (side : Side) (e : Expr) :
    List Char :=
  Text.parenthesizeIf (needsParens t outer side e) (formatBefore t e) []

theorem formatBefore_append (t : Table) (e : Expr) (x y : List Char) :
    formatBefore t e (x ++ y) = formatBefore t e x ++ y := by
  induction e generalizing x with
  | literal v => simp only [formatBefore, List.append_assoc]
  | binary o l r ihl ihr =>
      simp only [formatBefore]
      split
      · simp only [Text.parenthesizeIf]
        split <;> split <;>
          simp only [← List.cons_append, ← List.append_assoc, ihl, ihr]
      · simp only [← List.cons_append, ← List.append_assoc, ihl, ihr]

theorem formatBefore_eq (t : Table) (e : Expr) (tail : List Char) :
    formatBefore t e tail = format t e ++ tail := formatBefore_append t e [] tail

end Expr

end InfixArith
