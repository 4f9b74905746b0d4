import InfixArith.Binary64

/-!
# Expr — operators and expression trees

A tree has doubles at its leaves and one of five operators at each operation.  How an operator is
spelled and how tightly it binds is not part of a tree: that is the table's.

Two trees are equal when they have the same shape, the same operators and the same doubles bit for
bit, so `0.0` and `-0.0` differ and a value that is not a number equals itself.
-/

namespace InfixArith

/-- The binary operators. -/
inductive Operator where
  | add
  | sub
  | mul
  | div
  | pow
  deriving DecidableEq, Repr

namespace Operator

/-- Every operator, in the order of declaration. -/
def all : List Operator := [.add, .sub, .mul, .div, .pow]

def name : Operator → String
  | .add => "Add"
  | .sub => "Sub"
  | .mul => "Mul"
  | .div => "Div"
  | .pow => "Pow"

/-- The operator on doubles.  Nothing fails: a division by zero is infinite or not a number. -/
def apply : Operator → Float → Float → Float
  | .add, a, b => a + b
  | .sub, a, b => a - b
  | .mul, a, b => a * b
  | .div, a, b => a / b
  | .pow, a, b => Float.pow a b

end Operator

/-- How a chain of operators of one level groups. -/
inductive Associativity where
  /-- A chain `a - b - c` is `(a - b) - c`. -/
  | leftToRight
  /-- A chain `a ** b ** c` is `a ** (b ** c)`. -/
  | rightToLeft
  /-- A chain needs parentheses. -/
  | nonAssociative
  deriving DecidableEq, Repr

/-- Which operand of an operation a tree is. -/
inductive Side where
  | left
  | right
  deriving DecidableEq, Repr

namespace Associativity

def name : Associativity → String
  | .leftToRight    => "LeftToRight"
  | .rightToLeft    => "RightToLeft"
  | .nonAssociative => "NonAssociative"

/-- Whether an operand on `side` needs parentheses in an operation of its own level: it does unless
the level groups that way by itself. -/
def parensOnTie : Associativity → Side → Bool
  | .leftToRight,    side => side = .right
  | .rightToLeft,    side => side = .left
  | .nonAssociative, _    => true

end Associativity

/-- An arithmetic expression. -/
inductive Expr where
  | literal (value : Float)
  | binary (operator : Operator) (left right : Expr)
  deriving DecidableEq

namespace Expr

/-- The value of an expression, in doubles throughout. -/
def evaluate : Expr → Float
  | .literal v    => v
  | .binary o l r => o.apply l.evaluate r.evaluate

/-- The number of operations on the longest path from the root to a leaf. -/
def height : Expr → Nat
  | .literal _    => 0
  | .binary _ l r => max l.height r.height + 1

/-- The operator at the root; a literal has none. -/
def operator? : Expr → Option Operator
  | .literal _    => none
  | .binary o _ _ => some o

end Expr

end InfixArith
