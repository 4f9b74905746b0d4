import InfixArith.Decimal.Shortest

/-!
# Decimal — the text of a double

A double is written with the digits of its shortest decimal, positionally where the exponent of
the first digit lies in a range of the style and with an exponent elsewhere.  The three styles
are `display` for values and literals, `plain` for the trace, and `json` for exported trees.
-/

namespace InfixArith

/-- How the text of a double is laid out. -/
structure NumberStyle where
  /-- The least exponent of the first digit that is written positionally. -/
  positionalFrom : Int
  /-- The least exponent from which on an exponent is written. -/
  positionalBelow : Int
  /-- Whether a lone digit before an exponent is followed by `.0`. -/
  pointBeforeExponent : Bool
  /-- Whether a positive exponent is written with its sign. -/
  plusInExponent : Bool
  tie : Tie
  notANumber : String
  infinite : Bool → String

namespace NumberStyle

/-- Values and literals: `14.0`, `1.0e16`, `2.5e-7`. -/
def display : NumberStyle where
  positionalFrom := -4
  positionalBelow := 16
  pointBeforeExponent := true
  plusInExponent := false
  tie := .up
  notANumber := "NaN"
  infinite negative := if negative then "-inf" else "inf"

/-- Literals in the trace: as `display`, but `1e16`. -/
def plain : NumberStyle := { display with pointBeforeExponent := false }

/-- Literals in exported trees: `0.00001`, `1e+16`, and `null` for what is not finite. -/
def json : NumberStyle where
  positionalFrom := -5
  positionalBelow := 16
  pointBeforeExponent := false
  plusInExponent := true
  tie := .toEven
  notANumber := "null"
  infinite _ := "null"

/-- Digits with the point after the first `point` of them, filled up with zeros so that a digit
stands on both sides. -/
def positional (digits : List Char) (point : Int) : List Char :=
  if point ≤ 0 then '0' :: '.' :: (List.replicate (-point).toNat '0' ++ digits)
  else if digits.length ≤ point.toNat then
    digits ++ (List.replicate (point.toNat - digits.length) '0' ++ ['.', '0'])
  else digits.take point.toNat ++ '.' :: digits.drop point.toNat

/-- Digits with the point after the first of them and the exponent of that digit. -/
def scientific (style : NumberStyle) (digits : List Char) (exponent : Int) : List Char :=
  let fraction :=
    match digits.drop 1 with
    | [] => if style.pointBeforeExponent then ['.', '0'] else []
    | ds => '.' :: ds
  let sign := if exponent < 0 then ['-'] else if style.plusInExponent then ['+'] else []
  digits.take 1 ++ (fraction ++ 'e' :: (sign ++ Nat.toDigits 10 exponent.natAbs))

/-- A decimal in the given style. -/
def decimalText (style : NumberStyle) (d : Decimal) : List Char :=
  let digits := Nat.toDigits 10 d.digits
  let exponent := d.exponent + digits.length - 1
  if style.positionalFrom ≤ exponent ∧ exponent < style.positionalBelow then
    positional digits (exponent + 1)
  else scientific style digits exponent

/-- The magnitude with number `k`. -/
def magnitudeText (style : NumberStyle) (k : Nat) : List Char :=
  if k = 0 then ['0', '.', '0'] else decimalText style (Decimal.shortest style.tie k)

/-- The text of `v` in the given style. -/
def text (style : NumberStyle) (v : Float) : List Char :=
  match Binary64.view v with
  | .notANumber        => style.notANumber.toList
  | .infinite negative => (style.infinite negative).toList
  | .finite negative k =>
    if negative then '-' :: magnitudeText style k else magnitudeText style k

end NumberStyle

end InfixArith
