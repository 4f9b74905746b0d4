import InfixArith.Binary64

/-!
# Rounding — decimals of bounded size

A fixed-point decimal has a coefficient and a number of places.  `ofMagnitude?` takes the magnitude
of a double to one with about fifteen digits and at most 28 places, its coefficient below `2 ^ 96`.
`round?` rounds one to a number of significant figures; where figures are filled up with zeros the
places go up with them, beyond 28 too.  `toFloat` takes a decimal back to a double.  The first and
the last round on their way, digit by digit.
-/

namespace InfixArith

/-- The decimal `coefficient / 10 ^ places`. -/
structure Fixed where
  coefficient : Nat
  places : Nat
  deriving DecidableEq

namespace Fixed

/-- Coefficients are below this bound, `2 ^ 96`; it is not looked at where figures are filled up. -/
def coefficientBound : Nat := 0x1000000000000000000000000

/-- The greatest number of places of the decimal for a magnitude. -/
def maxPlaces : Nat := 28

/-- Places are dropped until the coefficient is below this bound, `2 ^ 52`. -/
def doubleBound : Nat := 0x10000000000000

/-- Multiplies the fives of `m * 5 ^ n * 10 ^ e` out; what does not fit is halved and rounded
down. -/
def timesFives : (n : Nat) → (m : Nat) → (e : Int) → Nat × Int
  | 0, m, e => (m, e)
  | n + 1, m, e =>
    if m % 2 = 0 then timesFives n (m / 2) (e + 1)
    else if 5 * m < coefficientBound then timesFives n (5 * m) e
    else timesFives n (m / 2) (e + 1)

/-- Divides the fives of `m / 5 ^ n * 10 ^ e` out, as tens while the coefficient fits; `none` when
the power of ten stays too large. -/
def overFives? : (n : Nat) → (m : Nat) → (e : Int) → Option (Nat × Int)
  | 0, m, e => some (m, e)
  | n + 1, m, e =>
    if 2 * m < coefficientBound then overFives? n (2 * m) (e - 1)
    else if 2 * e > n + 1 then none
    else overFives? n (m / 5) e

/-- Drops the last digit of `m`, rounding half up. -/
def dropDigit (m : Nat) : Nat := if 5 ≤ m % 10 then m / 10 + 1 else m / 10

/-- Drops `n` digits of `m` one by one; zero once no digit is left. -/
def dropDigits : (n : Nat) → (m : Nat) → Nat
  | 0, m => m
  | n + 1, m => if m / 10 = 0 then 0 else dropDigits n (dropDigit m)

/-- Writes `m * 10 ^ e` with places between zero and the greatest number. -/
def ofScaled? (m : Nat) (e : Int) : Option Fixed :=
  if 0 ≤ e then
    let c := m * Nat.pow 10 e.toNat
    if c < coefficientBound then some ⟨c, 0⟩ else none
  else if -e ≤ maxPlaces then some ⟨m, (-e).toNat⟩
  else some ⟨dropDigits ((-e).toNat - maxPlaces) m, maxPlaces⟩

/-- Drops places, rounding half up each time, until the coefficient is below `doubleBound`. -/
def narrow : (places : Nat) → (m : Nat) → Fixed
  | 0, m => ⟨m, 0⟩
  | p + 1, m => if doubleBound ≤ m then narrow p (dropDigit m) else ⟨m, p + 1⟩

/-- Drops the zeros at the end of the places. -/
def strip : (places : Nat) → (m : Nat) → Fixed
  | 0, m => ⟨m, 0⟩
  | p + 1, m => if m % 10 = 0 then strip p (m / 10) else ⟨m, p + 1⟩

/-- The decimal for the `k`-th magnitude; `none` where it is too large. -/
def ofMagnitude? (k : Nat) : Option Fixed := do
  let m := Binary64.mantissa k
  let e : Int := Binary64.scale k - 1074
  let (c, x) ← if e ≤ 0 then some (timesFives (-e).toNat m e) else overFives? e.toNat m e
  let f ← ofScaled? c x
  let f := narrow f.places f.coefficient
  return strip f.places f.coefficient

/-- The quotient `m / 10 ^ k`, rounded half up. -/
def divPowTen (m k : Nat) : Nat := (2 * m + Nat.pow 10 k) / (2 * Nat.pow 10 k)

/-- The decimal rounded to `n` significant figures, a half away from zero; `none` where it is too
large.  Figures that it lacks are filled up with zeros. -/
def round? (f : Fixed) (n : Nat) : Option Fixed :=
  let figures := (Nat.toDigits 10 f.coefficient).length
  if figures ≤ n then
    some ⟨f.coefficient * Nat.pow 10 (n - figures), f.places + (n - figures)⟩
  else
    let k := figures - n
    let q := divPowTen f.coefficient k
    if k ≤ f.places then some ⟨q, f.places - k⟩
    else
      let c := q * Nat.pow 10 (k - f.places)
      if c < coefficientBound then some ⟨c, 0⟩ else none

/-- The double for a decimal: whole part and fraction apart, their sum rounded to the places. -/
def toFloat (f : Fixed) : Float :=
  if f.places = 0 then Binary64.ofNat f.coefficient
  else
    let p := Nat.pow 10 f.places
    let whole := Binary64.ofNat (f.coefficient / p)
    let fraction := Binary64.ofNat (f.coefficient % p) / Binary64.ofNat p
    if fraction == 0 then whole
    else
      let t := Binary64.powNat 10 f.places
      Binary64.roundHalfAway ((whole + fraction) * t) / t

end Fixed

end InfixArith
