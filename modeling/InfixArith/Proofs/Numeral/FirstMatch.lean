import InfixArith.Proofs.Numeral.Pattern
import InfixArith.Proofs.Reading.Equations
import InfixArith.Proofs.Text.Regex
import Mathlib.Tactic.IntervalCases

/-!
# Numeral — the first match and the longest

The regular expression of numerals has two alternatives with the digits before the point in common,
and an exponent that may be missing, so it is not clear from its form that the match found first is
the longest.  It is, and it is what `scan?` takes (`scan?_leftmost_longest`).

Of every run of digits only the whole run leads on: what is given back of it is a digit, which
stands where a point or an exponent had to (`rests_star_digit`).
-/

namespace InfixArith

namespace Regex

/-- The decimal digits. -/
def decimals : List Char := ['0', '1', '2', '3', '4', '5', '6', '7', '8', '9']

/-- `[0-9]` -/
def digit : RegularExpression Char := oneOf decimals

/-- `[0-9]+` -/
def digits : RegularExpression Char := digit * digit.star

/-- `[+-]?` -/
def sign : RegularExpression Char := optional (oneOf ['+', '-'])

/-- `[0-9]*\.[0-9]+|[0-9]+\.?` -/
def magnitude : RegularExpression Char :=
  digit.star * (.char '.' * digits) + digits * optional (.char '.')

/-- `([eE][+-]?[0-9]+)?` -/
def exponent : RegularExpression Char := optional (oneOf ['e', 'E'] * (sign * digits))

/-- `[+-]?([0-9]*\.[0-9]+|[0-9]+\.?)([eE][+-]?[0-9]+)?` -/
def numeral : RegularExpression Char := sign * (magnitude * exponent)

/-! ### The words of the regular expression -/

theorem mem_oneOf {cs : List Char} {w : List Char} :
    w ∈ (oneOf cs).matches' ↔ ∃ c ∈ cs, w = [c] := by
  induction cs with
  | nil => exact iff_of_false (Language.notMem_zero w) nofun
  | cons c cs ih =>
      rw [oneOf, RegularExpression.matches'_add, Language.mem_add, ih, List.exists_mem_cons_iff]
      exact Iff.rfl

theorem matches'_oneOf_pair (c d : Char) : (oneOf [c, d]).matches' = {[c], [d]} := by
  ext w
  rw [mem_oneOf]
  simp only [List.mem_cons, List.not_mem_nil, or_false, exists_eq_or_imp, exists_eq_left]
  rfl

theorem mem_decimals_iff {c : Char} : c ∈ decimals ↔ c.isDigit = true := by
  constructor
  · have hall : decimals.all Char.isDigit = true := by decide
    exact List.all_eq_true.mp hall c
  · intro hc
    simp only [Char.isDigit, ge_iff_le, UInt32.le_iff_toNat_le, Bool.and_eq_true,
      decide_eq_true_eq] at hc
    obtain ⟨hlo, hhi⟩ := hc
    have hofNat : Char.ofNat c.val.toNat = c := Char.ofNat_toNat c
    change 48 ≤ c.val.toNat at hlo
    change c.val.toNat ≤ 57 at hhi
    rw [← hofNat]
    interval_cases c.val.toNat <;> decide

theorem matches'_optional (P : RegularExpression Char) :
    (optional P).matches' = 1 + P.matches' := add_comm _ _

theorem matches'_digit : digit.matches' = Numeral.digit := by
  ext w
  rw [digit, mem_oneOf]
  simp only [mem_decimals_iff]
  rfl

theorem matches'_digits : digits.matches' = Numeral.digits := by
  rw [digits, RegularExpression.matches'_mul, RegularExpression.matches'_star, matches'_digit]
  rfl

/-- The words of the regular expression are those of the pattern. -/
theorem matches'_numeral : numeral.matches' = Numeral.pattern := by
  have hpoint : (RegularExpression.char '.').matches' = {['.']} := rfl
  have hsign : sign.matches' = Numeral.sign? := by
    rw [sign, matches'_optional, matches'_oneOf_pair, Numeral.sign?]
  have hdigit : digit.star.matches' = KStar.kstar Numeral.digit := by
    rw [RegularExpression.matches'_star, matches'_digit]
  rw [numeral, magnitude, exponent]
  simp only [RegularExpression.matches'_mul, RegularExpression.matches'_add, matches'_optional,
    hsign, matches'_oneOf_pair, hpoint, hdigit, matches'_digits, Numeral.pattern, Numeral.magnitude,
    Numeral.exponent?, mul_assoc]

/-! ### The first match -/

theorem rests_digit (c : Char) (s : List Char) :
    rests digit (c :: s) = if c.isDigit then [s] else [] := by
  rw [digit, rests_oneOf_cons (by decide)]
  simp only [mem_decimals_iff]

/-- Of a run of digits everything is taken first, and whatever is given back is a digit. -/
theorem rests_star_digit (s : List Char) :
    ∃ l, rests digit.star s = s.dropWhile Char.isDigit :: l ∧
      ∀ r ∈ l, ∃ c ∈ r.head?, c.isDigit = true := by
  induction s with
  | nil => exact ⟨[], rfl, nofun⟩
  | cons c s ih =>
      have hstar : rests digit.star (c :: s) =
          ((rests digit (c :: s)).filter fun r => r.length < (c :: s).length).flatMap
            (repeated (rests digit) s) ++ [c :: s] := rfl
      by_cases hc : c.isDigit = true
      · obtain ⟨l, hl, hdigit⟩ := ih
        have hrepeat : repeated (rests digit) s s = s.dropWhile Char.isDigit :: l := hl
        refine ⟨l ++ [c :: s], ?_, fun r hr => ?_⟩
        · rw [hstar, rests_digit, if_pos hc, List.dropWhile_cons_of_pos hc]
          simp [hrepeat]
        · rcases List.mem_append.mp hr with hr | hr
          · exact hdigit r hr
          · rw [List.mem_singleton.mp hr]
            exact ⟨c, rfl, hc⟩
      · refine ⟨[], ?_, nofun⟩
        rw [hstar, rests_digit, if_neg hc, List.dropWhile_cons_of_neg hc]
        rfl

theorem first?_digits (s : List Char) : first? digits s =
    if s.takeWhile Char.isDigit = [] then none else some (s.dropWhile Char.isDigit) := by
  cases s with
  | nil => rfl
  | cons c s =>
      obtain ⟨l, hl, -⟩ := rests_star_digit s
      rw [digits, digit, first?_oneOf_mul (by decide), ← digit, first?, hl, List.head?_cons]
      simp only [mem_decimals_iff]
      by_cases hc : c.isDigit = true <;> simp [hc]

theorem first?_point_mul (Q : RegularExpression Char) (s : List Char) :
    first? (.char '.' * Q) ('.' :: s) = first? Q s := by
  rw [first?_mul]
  exact List.findSome?_singleton

theorem rests_point_of_ne {s : List Char} (hs : ∀ u, s ≠ '.' :: u) : rests (.char '.') s = [] := by
  cases s with
  | nil => rfl
  | cons c s => exact if_neg fun hc : c = '.' => hs s (hc ▸ rfl)

theorem first?_point_mul_of_ne (Q : RegularExpression Char) {s : List Char}
    (hs : ∀ u, s ≠ '.' :: u) : first? (.char '.' * Q) s = none := by
  rw [first?_mul, rests_point_of_ne hs, List.findSome?_nil]

/-- The digits and the point are those that are scanned. -/
theorem first?_magnitude (s : List Char) :
    first? magnitude s = (Numeral.scanDigits? s).map (·.2.2) := by
  have hfirst : first? (digit.star * (.char '.' * digits)) s =
      first? (.char '.' * digits) (s.dropWhile Char.isDigit) := by
    obtain ⟨l, hl, hdigit⟩ := rests_star_digit s
    refine first?_mul_of_rests hl fun r hr => first?_point_mul_of_ne digits ?_
    rintro u rfl
    obtain ⟨c, ⟨rfl⟩, hc⟩ := hdigit _ hr
    cases hc
  have hsecond : first? (digits * optional (.char '.')) s =
      if s.takeWhile Char.isDigit = [] then none
      else first? (optional (.char '.')) (s.dropWhile Char.isDigit) := by
    rw [first?_mul_of_isSome (fun q => by rw [first?_optional]; rfl), first?_digits]
    split <;> rfl
  rw [magnitude, first?_add, hfirst, hsecond]
  by_cases hpoint : ∃ u, s.dropWhile Char.isDigit = '.' :: u
  · obtain ⟨u, hu⟩ := hpoint
    have htaken : first? (optional (.char '.')) ('.' :: u) = some u := rfl
    simp only [hu, first?_point_mul, first?_digits, htaken, Numeral.scanDigits?]
    by_cases hf : u.takeWhile Char.isDigit = []
    · -- without digits after the point the second alternative takes the point, and no more
      have hdrop : u.dropWhile Char.isDigit = u := by
        simpa [hf] using List.takeWhile_append_dropWhile (p := Char.isDigit) (l := u)
      by_cases hw : s.takeWhile Char.isDigit = [] <;> simp [hw, hf, hdrop]
    · simp [hf]
  · have hno := not_exists.mp hpoint
    have hleft : first? (optional (.char '.')) (s.dropWhile Char.isDigit) =
        some (s.dropWhile Char.isDigit) := by
      rw [first?_optional, first?, rests_point_of_ne hno]
      rfl
    rw [first?_point_mul_of_ne digits hno, hleft, Numeral.scanDigits?_of_no_point hno]
    split <;> rfl

/-- A sign is taken where one stands, for nothing else can begin with it. -/
theorem first?_sign_mul {Q : RegularExpression Char}
    (hQ : ∀ c s, c = '+' ∨ c = '-' → first? Q (c :: s) = none) (s : List Char) :
    first? (sign * Q) s = first? Q (Sign.scan s).2 := by
  rw [first?_mul, sign, rests_optional]
  cases s with
  | nil =>
      rw [rests_oneOf_nil]
      exact List.findSome?_singleton
  | cons c s =>
      have hmem : c ∈ ['+', '-'] ↔ c = '+' ∨ c = '-' := by simp
      rw [rests_oneOf_cons (by decide)]
      by_cases hc : c = '+' ∨ c = '-'
      · have hscan : (Sign.scan (c :: s)).2 = s := by rcases hc with rfl | rfl <;> rfl
        rw [if_pos (hmem.mpr hc), hscan, List.singleton_append, List.findSome?_cons,
          List.findSome?_singleton, hQ c s hc]
        cases first? Q s <;> rfl
      · have hscan : Sign.scan (c :: s) = (none, c :: s) :=
          Sign.scan_text_append none (by rintro d ⟨rfl⟩; exact not_or.mp hc)
        rw [if_neg (mt hmem.mp hc), hscan, List.nil_append, List.findSome?_singleton]

theorem first?_exponent (s : List Char) : first? exponent s = some (Exponent.scan s).2 := by
  have hdigits : ∀ c s, c = '+' ∨ c = '-' → first? digits (c :: s) = none := by
    intro c s hc
    rw [first?_digits, if_pos]
    rcases hc with rfl | rfl <;> rfl
  rw [exponent, first?_optional, Option.some.injEq]
  cases s with
  | nil => rfl
  | cons c s =>
      rw [first?_oneOf_mul (by decide), first?_sign_mul hdigits, first?_digits]
      simp only [Exponent.scan, List.mem_cons, List.not_mem_nil, or_false]
      split
      · split <;> rfl
      · rfl

/-- **The first match is what is scanned.** -/
theorem first?_numeral (s : List Char) : first? numeral s = (Numeral.scan? s).map (·.2) := by
  have hrest : ∀ s, first? (magnitude * exponent) s =
      (Numeral.scanDigits? s).map fun x => (Exponent.scan x.2.2).2 := by
    intro s
    rw [first?_mul_of_isSome (fun q => by rw [first?_exponent]; rfl), first?_magnitude]
    cases Numeral.scanDigits? s with
    | none => rfl
    | some x => exact first?_exponent x.2.2
  have hsign : ∀ c s, c = '+' ∨ c = '-' → first? (magnitude * exponent) (c :: s) = none := by
    intro c s hc
    rw [hrest, Option.map_eq_none_iff]
    rcases hc with rfl | rfl <;> rfl
  rw [numeral, first?_sign_mul hsign, hrest, Numeral.scan?, Option.map_map]
  rfl

end Regex

namespace Numeral

/-! ### The longest match -/

theorem length_dropWhile_append_le {ds : List Char} (hd : Digits ds) (s : List Char) :
    ((ds ++ s).dropWhile Char.isDigit).length ≤ s.length := by
  rw [List.dropWhile_append_of_pos hd]
  exact (List.dropWhile_suffix _).length_le

/-- No numeral takes more digits than are scanned. -/
theorem scanDigits?_longest {whole w u r : List Char} {fraction f : Option (List Char)}
    (hw : Digits whole) (hf : ∀ f ∈ fraction, Digits f)
    (h : scanDigits? (whole ++ (fractionText fraction ++ u)) = some (w, f, r)) :
    r.length ≤ u.length := by
  cases fraction with
  | none =>
      have hle := length_dropWhile_append_le hw u
      simp only [fractionText, List.nil_append] at h
      by_cases hpoint : ∃ v, (whole ++ u).dropWhile Char.isDigit = '.' :: v
      · obtain ⟨v, hv⟩ := hpoint
        rw [hv] at hle
        simp only [scanDigits?, hv] at h
        split at h
        · cases h
        · cases h
          have := (List.dropWhile_suffix Char.isDigit (l := v)).length_le
          rw [List.length_cons] at hle
          omega
      · rw [scanDigits?_of_no_point (not_exists.mp hpoint)] at h
        split at h
        · cases h
        · cases h
          exact hle
  | some f =>
      have hpoint : NoDigit ('.' :: (f ++ u)) := by rintro c ⟨rfl⟩; rfl
      obtain ⟨-, hdrop⟩ := takeWhile_digits hw hpoint
      rw [fractionText, List.cons_append] at h
      simp only [scanDigits?, hdrop] at h
      split at h
      · cases h
      · cases h
        exact length_dropWhile_append_le (hf f rfl) u

/-- No exponent is longer than the one that is scanned. -/
theorem exponent_longest {x : Option Exponent} (hx : ∀ y ∈ x, y.WellFormed) (u : List Char) :
    (Exponent.scan (Exponent.text x ++ u)).2.length ≤ u.length := by
  cases x with
  | none =>
      have hlen := congrArg List.length (Exponent.text_append_scan u)
      rw [List.length_append] at hlen
      exact hlen ▸ Nat.le_add_left _ _
  | some x =>
      obtain ⟨mark, sign, digits⟩ := x
      obtain ⟨hm, hne, hd⟩ := hx _ rfl
      simp only [Exponent.text, List.cons_append, List.append_assoc, Exponent.scan, if_pos hm,
        Sign.scan_text_append sign (hd.not_sign hne), if_neg (takeWhile_append_ne_nil hd hne u)]
      exact length_dropWhile_append_le hd u

/-- **No numeral is longer than the one that is scanned.** -/
theorem scan?_longest {n m : Numeral} {u r : List Char} (hn : n.WellFormed)
    (h : scan? (n.text ++ u) = some (m, r)) : r.length ≤ u.length := by
  have hsign := Sign.scan_text_append n.sign (head_digits_append hn (Exponent.text n.exponent ++ u))
  simp only [scan?, text, List.append_assoc, hsign, Option.map_eq_some_iff] at h
  obtain ⟨⟨w, f, v⟩, hv, heq⟩ := h
  cases heq
  by_cases hends : ∀ c ∈ (Exponent.text n.exponent ++ u).head?, c.isDigit = false ∧ c ≠ '.'
  · -- the digits end where those of the numeral do, and its exponent is there
    rw [scanDigits?_append hn.whole hn.fraction hn.has_digit hends] at hv
    cases hv
    exact exponent_longest hn.exponent u
  · -- the digits may go on where the numeral ends, but then it has no exponent
    have hnone : n.exponent = none := by
      cases hx : n.exponent with
      | none => rfl
      | some x =>
          refine absurd (fun c hc => ?_) hends
          obtain ⟨hm, -, -⟩ := hn.exponent x hx
          rw [hx] at hc
          cases hc
          rcases hm with h | h <;> rw [h] <;> decide
    have hv' : (Exponent.scan v).2.length ≤ v.length :=
      exponent_longest (x := none) (fun y hy => absurd hy (Option.not_mem_none y)) v
    rw [hnone] at hv
    exact hv'.trans (scanDigits?_longest hn.whole hn.fraction hv)

/-- **Leftmost-first and longest.**  After the blanks the numeral scanned is what the first match of
the regular expression takes, and no word of the regular expression that stands there is longer.  No
numeral is scanned exactly if no word stands there.  A reader that finds neither the end nor a
parenthesis goes on behind the numeral, and if there is none it stays where the blanks end. -/
theorem scan?_leftmost_longest (s : List Char) :
    (scan? (Text.skipBlanks s)).map (·.2) = Regex.first? Regex.numeral (Text.skipBlanks s) ∧
    (∀ n rest, scan? (Text.skipBlanks s) = some (n, rest) →
      n.text ++ rest = Text.skipBlanks s ∧ n.text ∈ Regex.numeral.matches' ∧
      ∀ w ∈ Regex.numeral.matches', w <+: Text.skipBlanks s → w.length ≤ n.text.length) ∧
    (scan? (Text.skipBlanks s) = none ↔
      ∀ w ∈ Regex.numeral.matches', ¬ w <+: Text.skipBlanks s) ∧
    ∀ inner c r, Text.skipBlanks s = c :: r → c ≠ '(' → (Reading.operand inner s).outcome =
      match scan? (Text.skipBlanks s) with
      | some (n, rest) => .done (.literal n.value) rest
      | none           => .failed (.notOperand (Text.skipBlanks s)) (Text.skipBlanks s) 0 := by
  refine ⟨(Regex.first?_numeral _).symm, fun n rest hscan => ?_, ?_, ?_⟩
  · have htext := text_append_of_scan? hscan
    rw [Regex.matches'_numeral]
    refine ⟨htext, mem_pattern_iff.mpr ⟨n, wellFormed_of_scan? hscan, rfl⟩, ?_⟩
    rintro w hw ⟨u, hu⟩
    obtain ⟨m, hm, rfl⟩ := mem_pattern_iff.mp hw
    have hle := scan?_longest hm (hu ▸ hscan)
    have hlen := congrArg List.length (htext.trans hu.symm)
    simp only [List.length_append] at hlen
    omega
  · rw [← Regex.first?_eq_none_iff, Regex.first?_numeral, Option.map_eq_none_iff]
  · intro inner c r hahead hc
    rw [Reading.outcome_operand, hahead]
    split
    · next heq => cases heq
    · next heq =>
      cases heq
      exact absurd rfl hc
    · cases scan? (c :: r) <;> rfl

/-- A mark without digits is no exponent: it is given back, with the sign after it. -/
example : (scan? "1.e+x".toList).map (·.2) = some "e+x".toList := by decide

end Numeral

end InfixArith
