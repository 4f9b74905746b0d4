import InfixArith.Binary64

/-!
# Decimal — the shortest decimal that reads back

The decimals `g * 10 ^ x` with a fixed `x` form a grid.  A double lies between two neighbours on
each grid; the coarsest grid on which a neighbour is nearer to this double than to any other gives
the decimal with the fewest digits, and of two such neighbours the nearer one is taken.  The grid
of `10 ^ -1074` holds every double itself, so the search ends.
-/

namespace InfixArith

/-- The decimal `digits * 10 ^ exponent`. -/
structure Decimal where
  digits : Nat
  exponent : Int
  deriving DecidableEq

/-- Which of two equally near neighbours is taken. -/
inductive Tie where
  | up
  | toEven
  deriving DecidableEq

namespace Decimal

open Binary64 (units unitsOfOne ofDecimal)

/-- The `k`-th magnitude divided by `10 ^ x`, as a fraction. -/
def onGrid (k : Nat) : Int → Nat × Nat
  | .ofNat n   => (units k, unitsOfOne * Nat.pow 10 n)
  | .negSucc n => (units k * Nat.pow 10 (n + 1), unitsOfOne)

/-- The whole number that `g` or `g + 1` is nearer to, for the fraction `g + r / d`. -/
def nearer (tie : Tie) (g r d : Nat) : Nat :=
  if 2 * r < d then g
  else if d < 2 * r then g + 1
  else
    match tie with
    | .up     => g + 1
    | .toEven => g + g % 2

/-- The multiple of `10 ^ x` to write the `k`-th magnitude as, if a neighbour of it on that grid
reads back. -/
def onGrid? (tie : Tie) (k : Nat) (x : Int) : Option Nat :=
  let (n, d) := onGrid k x
  let g := n / d
  match decide (ofDecimal g x = k), decide (ofDecimal (g + 1) x = k) with
  | true,  true  => some (nearer tie g (n % d) d)
  | true,  false => some g
  | false, true  => some (g + 1)
  | false, false => none

/-- The `k`-th magnitude on the first of the `steps` grids from `10 ^ x` down on which it can be
written, and in full if there is none. -/
def firstOnGrid (tie : Tie) (k : Nat) : Nat → Int → Decimal
  | 0, _ => ⟨units k * Nat.pow 5 1074, -1074⟩
  | steps + 1, x =>
    match onGrid? tie k x with
    | some g => ⟨g, x⟩
    | none   => firstOnGrid tie k steps (x - 1)

/-- An exponent that the first digit of the `k`-th magnitude does not exceed: `0.30103` is just
above the logarithm of two. -/
def startExponent (k : Nat) : Int := (((units k).log2 : Int) - 1074) * 30103 / 100000 + 2

/-- The decimal with the fewest digits that reads back as the `k`-th magnitude, and of these the
nearest to it. -/
def shortest (tie : Tie) (k : Nat) : Decimal :=
  firstOnGrid tie k (startExponent k + 1074).toNat (startExponent k)

end Decimal

end InfixArith
