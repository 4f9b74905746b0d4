/-!
# Binary64 — doubles as counted magnitudes

The magnitudes of the doubles, in ascending order, are numbered by the low 63 bits of their bit
patterns: `0` is zero, `1` the least positive double, `infinity` the first number past the finite
ones.  Every finite magnitude is a whole multiple of `2 ^ -1074`, so a double is a sign, a number
(`rank`) and a natural number (`units`), and comparing a double with a decimal is arithmetic on
natural numbers.

`nearest` goes back: the number of the magnitude nearest to a fraction, a half to the even number.
-/

namespace InfixArith.Binary64

/-- How many magnitudes there are below the first with a full mantissa, and from each power of two
to the next: `2 ^ 52`. -/
def binade : Nat := 0x10000000000000

/-- The number of the first magnitude past the finite ones. -/
def infinity : Nat := 0x7FF0000000000000

/-- The weight of the sign bit: `2 ^ 63`. -/
def signBit : Nat := 0x8000000000000000

/-- The number one, as a multiple of `2 ^ -1074`. -/
def unitsOfOne : Nat := Nat.pow 2 1074

/-- The mantissa of the `k`-th magnitude, with all its bits above the least numbers. -/
def mantissa (k : Nat) : Nat := if k < binade then k else binade + k % binade

/-- The exponent of the `k`-th magnitude over the least one. -/
def scale (k : Nat) : Nat := k / binade - 1

/-- The `k`-th magnitude, as a multiple of `2 ^ -1074`. -/
def units (k : Nat) : Nat := mantissa k * Nat.pow 2 (scale k)

/-- The number of the magnitude of `v`; past `infinity` for a value that is not a number. -/
def rank (v : Float) : Nat := v.toBits.toNat % signBit

/-- Whether the sign bit of `v` is set. -/
def isNegative (v : Float) : Bool := signBit ≤ v.toBits.toNat

/-- The double with the `k`-th magnitude and the given sign. -/
def ofRank (negative : Bool) (k : Nat) : Float :=
  Float.ofBits (UInt64.ofNat (if negative then signBit + k else k))

/-- What a double stands for. -/
inductive View where
  | notANumber
  | infinite (negative : Bool)
  | finite (negative : Bool) (rank : Nat)
  deriving DecidableEq

/-- The sign and magnitude of `v`. -/
def view (v : Float) : View :=
  if infinity < rank v then .notANumber
  else if rank v = infinity then .infinite (isNegative v)
  else .finite (isNegative v) (rank v)

/-- The quotient `n / d` rounded to a whole number, a half to the even one. -/
def roundHalfEven (n d : Nat) : Nat :=
  let q := n / d
  let r := n % d
  if 2 * r < d then q else if d < 2 * r then q + 1 else q + q % 2

/-- The number of the magnitude nearest to `n / d` times `2 ^ -1074`, a half to the even number;
`infinity` past the largest finite magnitude. -/
def nearest (n d : Nat) : Nat :=
  let s := (n / d).log2 - 52
  min infinity (s * binade + roundHalfEven n (d * Nat.pow 2 s))

/-- The number of the magnitude nearest to `m * 10 ^ e`.

From `10 ^ 310` on everything is infinite, and what is below `2 ^ -1100` is zero; there the powers
of ten are not computed. -/
def ofDecimal (m : Nat) : Int → Nat
  | .ofNat k =>
    if m = 0 then 0
    else if 310 ≤ k then infinity
    else nearest (m * Nat.pow 10 k * unitsOfOne) 1
  | .negSucc k =>
    if m.log2 + 1101 < 3 * (k + 1) then 0
    else nearest (m * unitsOfOne) (Nat.pow 10 (k + 1))

/-- The double nearest to the whole number `n`. -/
def ofNat (n : Nat) : Float := ofRank false (ofDecimal n 0)

/-- The greatest whole number that is not above the finite double `v`. -/
def floor (v : Float) : Int :=
  let u := units (rank v)
  if isNegative v then -((u + unitsOfOne - 1) / unitsOfOne : Nat) else (u / unitsOfOne : Nat)

/-- The whole number nearest to `v`, a half away from zero; `v` itself if it is not finite. -/
def roundHalfAway (v : Float) : Float :=
  match view v with
  | .finite negative k =>
    ofRank negative (ofDecimal ((2 * units k + unitsOfOne) / (2 * unitsOfOne)) 0)
  | _                  => v

/-- Raises `a` to a whole power by repeated squaring, every product rounded: a factor for each bit
of `k`, the lowest first. -/
def powNat (a : Float) (k : Nat) : Float := go k a 1 k
where
  /-- Multiplies `acc` by the factors for the bits of `k`, with `a` the factor of the lowest;
  `steps` bounds the number of bits. -/
  go : Nat → Float → Float → Nat → Float
    | 0, _, acc, _ => acc
    | steps + 1, a, acc, k =>
      let acc := if k % 2 = 1 then acc * a else acc
      if k / 2 = 0 then acc else go steps (a * a) acc (k / 2)

/-- Raises `a` to a whole power; a negative power is the reciprocal of the positive one. -/
def powInt (a : Float) : Int → Float
  | .ofNat k   => powNat a k
  | .negSucc k => 1 / powNat a (k + 1)

end InfixArith.Binary64
