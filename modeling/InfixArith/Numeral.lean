import InfixArith.Binary64

/-!
# Numeral — unsigned, signed and scaled decimal literals

A numeral is an optional sign, digits with at most one point among them, and an optional exponent.
At least one digit stands beside the point; digits follow the exponent mark, after a sign of their
own if they have one.

`Numeral.scan?` takes the longest numeral a text begins with; `Numeral.value` is the double nearest
to what it stands for.
-/

namespace InfixArith

/-- A written sign. -/
inductive Sign where
  | plus
  | minus
  deriving DecidableEq

namespace Sign

def text : Option Sign → List Char
  | none        => []
  | some .plus  => ['+']
  | some .minus => ['-']

/-- The sign a text begins with, if any, and the text after it. -/
def scan : List Char → Option Sign × List Char
  | '+' :: s => (some .plus, s)
  | '-' :: s => (some .minus, s)
  | s        => (none, s)

theorem text_append_scan (s : List Char) : text (scan s).1 ++ (scan s).2 = s := by
  unfold scan
  split <;> rfl

end Sign

/-- The exponent of a numeral: its mark (`e` or `E`), its sign and its digits. -/
structure Exponent where
  mark : Char
  sign : Option Sign
  digits : List Char
  deriving DecidableEq

namespace Exponent

def text : Option Exponent → List Char
  | none   => []
  | some x => x.mark :: (Sign.text x.sign ++ x.digits)

/-- The power of ten an exponent stands for. -/
def value : Option Exponent → Int
  | none   => 0
  | some x =>
    let n : Nat := Nat.ofDigitChars 10 x.digits 0
    if x.sign = some .minus then -n else n

/-- The exponent a text begins with, if any, and the text after it.  A mark that no digit follows
is no exponent. -/
def scan : List Char → Option Exponent × List Char
  | [] => (none, [])
  | c :: s =>
    if c = 'e' ∨ c = 'E' then
      let (sign, r) := Sign.scan s
      let digits := r.takeWhile Char.isDigit
      if digits = [] then (none, c :: s) else (some ⟨c, sign, digits⟩, r.dropWhile Char.isDigit)
    else (none, c :: s)

theorem text_append_scan (s : List Char) : text (scan s).1 ++ (scan s).2 = s := by
  cases s with
  | nil => rfl
  | cons c s =>
      simp only [scan]
      split
      · split
        · rfl
        · simp only [text, List.cons_append, List.append_assoc, List.takeWhile_append_dropWhile,
            Sign.text_append_scan]
      · rfl

end Exponent

/-- The pieces of a numeral: `fraction` is `none` when there is no point. -/
structure Numeral where
  sign : Option Sign
  whole : List Char
  fraction : Option (List Char)
  exponent : Option Exponent
  deriving DecidableEq

namespace Numeral

/-- The point and the digits after it. -/
def fractionText : Option (List Char) → List Char
  | none   => []
  | some f => '.' :: f

def text (n : Numeral) : List Char :=
  Sign.text n.sign ++ (n.whole ++ (fractionText n.fraction ++ Exponent.text n.exponent))

/-- The digits before the point, the digits after it if there is one, and the text after both;
`none` when there is no digit. -/
def scanDigits? (s : List Char) : Option (List Char × Option (List Char) × List Char) :=
  let whole := s.takeWhile Char.isDigit
  match s.dropWhile Char.isDigit with
  | '.' :: r =>
    let fraction := r.takeWhile Char.isDigit
    if whole = [] ∧ fraction = [] then none
    else some (whole, some fraction, r.dropWhile Char.isDigit)
  | r => if whole = [] then none else some (whole, none, r)

/-- The longest numeral a text begins with, and the text after it. -/
def scan? (s : List Char) : Option (Numeral × List Char) :=
  let (sign, r) := Sign.scan s
  (scanDigits? r).map fun (whole, fraction, r) =>
    let (exponent, r) := Exponent.scan r
    (⟨sign, whole, fraction, exponent⟩, r)

/-- A numeral is `coefficient` times ten to the `scale`, with its sign. -/
def coefficient (n : Numeral) : Nat := Nat.ofDigitChars 10 (n.whole ++ n.fraction.getD []) 0

def scale (n : Numeral) : Int := Exponent.value n.exponent - (n.fraction.getD []).length

/-- The double nearest to what the numeral stands for. -/
def value (n : Numeral) : Float :=
  Binary64.ofRank (n.sign = some .minus) (Binary64.ofDecimal n.coefficient n.scale)

theorem scanDigits?_eq_some {s r whole : List Char} {fraction : Option (List Char)}
    (h : scanDigits? s = some (whole, fraction, r)) : whole ++ (fractionText fraction ++ r) = s := by
  have hs := List.takeWhile_append_dropWhile (p := Char.isDigit) (l := s)
  unfold scanDigits? at h
  dsimp only at h
  split at h
  · next r' hr =>
      split at h
      · cases h
      · cases h
        rw [hr] at hs
        simpa only [fractionText, List.cons_append, List.takeWhile_append_dropWhile] using hs
  · split at h
    · cases h
    · cases h
      exact hs

/-- Scanning loses nothing: the numeral's text and the rest make up the text. -/
theorem text_append_of_scan? {s r : List Char} {n : Numeral} (h : scan? s = some (n, r)) :
    n.text ++ r = s := by
  simp only [scan?, Option.map_eq_some_iff] at h
  obtain ⟨⟨whole, fraction, r'⟩, hd, hn⟩ := h
  cases hn
  simp only [text, List.append_assoc, Exponent.text_append_scan]
  rw [scanDigits?_eq_some hd, Sign.text_append_scan]

end Numeral

end InfixArith
