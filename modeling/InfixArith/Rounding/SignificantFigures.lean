import InfixArith.Rounding.Fixed

/-!
# Rounding — significant figures

A value is rounded for display to a number of significant figures, a half away from zero: as a
fixed-point decimal where it is of moderate size, and otherwise as a multiple of a power of ten in
doubles.  Seventeen figures tell any two doubles apart, so from there on nothing is rounded.
-/

namespace InfixArith.Rounding

/-- The number of figures that tells any two doubles apart. -/
def allFigures : Nat := 17

/-- The figures shown unless another number is asked for. -/
def usualFigures : Nat := 12

/-- Rounds `v` as a fixed-point decimal; `none` where there is none for `v`. -/
def asDecimal? (v : Float) (figures : Nat) : Option Float := do
  let f ← Fixed.ofMagnitude? (Binary64.rank v)
  if f.coefficient = 0 then return 0
  let f ← f.round? figures
  return Binary64.ofRank (Binary64.isNegative v) (Binary64.rank f.toFloat)

/-- Rounds `v` to a multiple of `10 ^ place` in doubles; `v` itself where that is not finite. -/
def asMultiple (v : Float) (place : Int) : Float :=
  let unit := Binary64.powInt 10 place
  if unit == 0 || !unit.isFinite then v
  else
    let x := Binary64.roundHalfAway (v / unit) * unit
    if x.isFinite then x else v

/-- The exponent of the first digit of `v`, by its logarithm. -/
def firstPlace (v : Float) : Int := Binary64.floor (Float.log10 v.abs)

/-- Rounds `v` to `figures` significant figures. -/
def round (v : Float) (figures : Nat) : Float :=
  if v == 0 || !v.isFinite || figures = 0 || allFigures ≤ figures then v
  else
    let place := firstPlace v - figures + 1
    if -place ≤ Fixed.maxPlaces then
      match asDecimal? v figures with
      | some x => x
      | none   => asMultiple v place
    else asMultiple v place

end InfixArith.Rounding
