import InfixArith.Decimal.NumberStyle
import InfixArith.Expr.Basic

/-!
# Expr — export as JSON

A literal is a JSON number, or `null` when it is not finite; an operation is an object with the
keys `left`, `op` and `right`, in this order.  The text is either on one line or indented by two
spaces for each object around it.
-/

namespace InfixArith

/-- How exported text is laid out. -/
inductive ExportStyle where
  | compact
  | pretty
  deriving DecidableEq

namespace ExportStyle

/-- What stands before a key or a closing brace inside `depth` objects. -/
def newline : ExportStyle → Nat → List Char
  | .compact, _     => []
  | .pretty,  depth => '\n' :: List.replicate (2 * depth) ' '

/-- What stands between a key and its value. -/
def colon : ExportStyle → List Char
  | .compact => [':']
  | .pretty  => [':', ' ']

/-- A key inside `depth` objects, up to its value. -/
def key (style : ExportStyle) (depth : Nat) (name : String) : List Char :=
  style.newline depth ++ ('"' :: name.toList ++ ('"' :: style.colon))

end ExportStyle

namespace Expr

/-- The JSON text of an expression inside `depth` objects, before the text `tail`. -/
def exportBefore (style : ExportStyle) (depth : Nat) : Expr → List Char → List Char
  | .literal v, tail    => NumberStyle.json.text v ++ tail
  | .binary o l r, tail =>
    '\x7b' :: (style.key (depth + 1) "left" ++
      exportBefore style (depth + 1) l (',' :: (style.key (depth + 1) "op" ++
        ('"' :: o.name.toList ++ ('"' :: ',' :: (style.key (depth + 1) "right" ++
          exportBefore style (depth + 1) r (style.newline depth ++ '\x7d' :: tail)))))))

/-- The JSON text of an expression. -/
def exportText (style : ExportStyle) (e : Expr) : List Char := exportBefore style 0 e []

end Expr

end InfixArith
