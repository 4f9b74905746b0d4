import InfixArith.Proofs.Numeral.Scan
import Mathlib.Computability.Language

/-!
# Numeral — the pattern of numerals

The texts of the well-formed numerals are the words of the pattern
`[+-]?([0-9]*\.[0-9]+|[0-9]+\.?)([eE][+-]?[0-9]+)?` (`mem_pattern_iff`), and a numeral is found in
every text that begins with one (`scan?_eq_none_iff`).

A double can be written in these ways and also by name (`literal_eq`), so a numeral that has been found
is always the text of a double (`text_mem_literal`): its conversion cannot fail.
-/

namespace InfixArith.Numeral

open scoped Computability

/-- `[0-9]` -/
def digit : Language Char := {s | ∃ c : Char, c.isDigit = true ∧ s = [c]}

/-- `[0-9]+` -/
def digits : Language Char := digit * digit∗

/-- `[+-]?` -/
def sign? : Language Char := 1 + {['+'], ['-']}

/-- `[0-9]*\.[0-9]+|[0-9]+\.?` -/
def magnitude : Language Char := digit∗ * {['.']} * digits + digits * (1 + {['.']})

/-- `([eE][+-]?[0-9]+)?` -/
def exponent? : Language Char := 1 + {['e'], ['E']} * sign? * digits

/-- The pattern of a numeral. -/
def pattern : Language Char := sign? * magnitude * exponent?

theorem mem_digit_star {s : List Char} : s ∈ digit∗ ↔ Digits s := by
  constructor
  · intro hs
    obtain ⟨words, rfl, hwords⟩ := Language.mem_kstar.mp hs
    intro c hc
    obtain ⟨w, hw, hcw⟩ := List.mem_flatten.mp hc
    obtain ⟨d, hd, rfl⟩ := hwords w hw
    rwa [List.mem_singleton.mp hcw]
  · intro hs
    refine Language.mem_kstar.mpr ⟨s.map fun c => [c], ?_, fun w hw => ?_⟩
    · rw [← List.flatMap_def, List.flatMap_singleton']
    · obtain ⟨c, hc, rfl⟩ := List.mem_map.mp hw
      exact ⟨c, hs c hc, rfl⟩

theorem mem_digits {s : List Char} : s ∈ digits ↔ s ≠ [] ∧ Digits s := by
  rw [digits, Language.mem_mul]
  constructor
  · rintro ⟨_, ⟨c, hc, rfl⟩, r, hr, rfl⟩
    refine ⟨List.cons_ne_nil c r, fun d hd => ?_⟩
    rcases List.mem_cons.mp hd with rfl | hd
    · exact hc
    · exact mem_digit_star.mp hr d hd
  · rintro ⟨hne, hs⟩
    obtain ⟨c, r, rfl⟩ := List.exists_cons_of_ne_nil hne
    exact ⟨[c], ⟨c, hs c List.mem_cons_self, rfl⟩, r,
      mem_digit_star.mpr fun d hd => hs d (List.mem_cons_of_mem c hd), rfl⟩

theorem mem_sign? {s : List Char} : s ∈ sign? ↔ ∃ x, Sign.text x = s := by
  rw [sign?, Language.mem_add, Language.mem_one]
  constructor
  · rintro (rfl | rfl | rfl)
    · exact ⟨none, rfl⟩
    · exact ⟨some .plus, rfl⟩
    · exact ⟨some .minus, rfl⟩
  · rintro ⟨_ | _ | _, rfl⟩
    · exact .inl rfl
    · exact .inr (.inl rfl)
    · exact .inr (.inr rfl)

theorem mem_magnitude {s : List Char} : s ∈ magnitude ↔ ∃ whole fraction,
    whole ++ fractionText fraction = s ∧ Digits whole ∧ (∀ f ∈ fraction, Digits f) ∧
      (whole ≠ [] ∨ ∃ f ∈ fraction, f ≠ []) := by
  simp only [magnitude, Language.mem_add, Language.mem_mul, mem_digits, mem_digit_star,
    Language.mem_one]
  constructor
  · rintro (⟨_, ⟨w, hw, _, rfl, rfl⟩, f, ⟨hne, hf⟩, rfl⟩ | ⟨w, ⟨hne, hw⟩, p, rfl | rfl, rfl⟩)
    · exact ⟨w, some f, by simp [fractionText], hw, (by rintro g ⟨rfl⟩; exact hf),
        .inr ⟨f, rfl, hne⟩⟩
    · exact ⟨w, none, rfl, hw, (by rintro g ⟨⟩), .inl hne⟩
    · exact ⟨w, some [], rfl, hw, (by rintro g ⟨rfl⟩ c hc; cases hc), .inl hne⟩
  · rintro ⟨w, fraction, rfl, hw, hf, hne⟩
    cases fraction with
    | none =>
        refine .inr ⟨w, ⟨hne.resolve_right ?_, hw⟩, [], .inl rfl, rfl⟩
        rintro ⟨f, ⟨⟩, -⟩
    | some f =>
        by_cases hnil : f = []
        · subst hnil
          refine .inr ⟨w, ⟨hne.resolve_right ?_, hw⟩, ['.'], .inr rfl, rfl⟩
          rintro ⟨f, ⟨rfl⟩, hne⟩
          exact hne rfl
        · exact .inl ⟨w ++ ['.'], ⟨w, hw, ['.'], rfl, rfl⟩, f, ⟨hnil, hf f rfl⟩,
            by simp [fractionText]⟩

theorem mem_exponent? {s : List Char} :
    s ∈ exponent? ↔ ∃ x, Exponent.text x = s ∧ ∀ y ∈ x, y.WellFormed := by
  simp only [exponent?, Language.mem_add, Language.mem_mul, mem_digits, mem_sign?, Language.mem_one]
  constructor
  · rintro (rfl | ⟨_, ⟨_, hmark, _, ⟨sg, rfl⟩, rfl⟩, ds, ⟨hne, hd⟩, rfl⟩)
    · exact ⟨none, rfl, by rintro y ⟨⟩⟩
    · rcases hmark with rfl | rfl
      · exact ⟨some ⟨'e', sg, ds⟩, by simp [Exponent.text],
          (by rintro y ⟨rfl⟩; exact ⟨.inl rfl, hne, hd⟩)⟩
      · exact ⟨some ⟨'E', sg, ds⟩, by simp [Exponent.text],
          (by rintro y ⟨rfl⟩; exact ⟨.inr rfl, hne, hd⟩)⟩
  · rintro ⟨x, rfl, hx⟩
    cases x with
    | none => exact .inl rfl
    | some x =>
        obtain ⟨mark, sg, ds⟩ := x
        obtain ⟨hmark, hne, hd⟩ := hx _ rfl
        refine .inr ⟨mark :: Sign.text sg, ⟨[mark], ?_, _, ⟨sg, rfl⟩, rfl⟩, ds, ⟨hne, hd⟩, rfl⟩
        rcases hmark with h | h
        · exact .inl (congrArg (fun c => [c]) h)
        · exact .inr (congrArg (fun c => [c]) h)

/-- **The pattern.**  Its words are the texts of the well-formed numerals. -/
theorem mem_pattern_iff {s : List Char} : s ∈ pattern ↔ ∃ n : Numeral, n.WellFormed ∧ n.text = s := by
  simp only [pattern, Language.mem_mul, mem_sign?, mem_magnitude, mem_exponent?]
  constructor
  · rintro ⟨_, ⟨_, ⟨sg, rfl⟩, _, ⟨w, f, rfl, hw, hf, hne⟩, rfl⟩, _, ⟨x, rfl, hx⟩, rfl⟩
    exact ⟨⟨sg, w, f, x⟩, ⟨hw, hf, hne, hx⟩, by simp [text]⟩
  · rintro ⟨n, hn, rfl⟩
    exact ⟨_, ⟨_, ⟨n.sign, rfl⟩, _, ⟨n.whole, n.fraction, rfl, hn.whole, hn.fraction,
      hn.has_digit⟩, rfl⟩, _, ⟨n.exponent, rfl, hn.exponent⟩, by simp [text]⟩

/-- **No numeral is found** exactly where none stands: in a text that begins with no word of the
pattern. -/
theorem scan?_eq_none_iff {s : List Char} : scan? s = none ↔ ∀ w ∈ pattern, ¬ w <+: s := by
  constructor
  · rintro hnone w hw ⟨r, rfl⟩
    obtain ⟨n, hn, rfl⟩ := mem_pattern_iff.mp hw
    have hsign := Sign.scan_text_append n.sign
      (head_digits_append hn (Exponent.text n.exponent ++ r))
    have hsome := scanDigits?_isSome hn.whole hn.fraction hn.has_digit
      (Exponent.text n.exponent ++ r)
    simp only [scan?, text, List.append_assoc, hsign, Option.map_eq_none_iff] at hnone
    rw [hnone] at hsome
    cases hsome
  · intro hno
    cases hscan : scan? s with
    | none => rfl
    | some found =>
        obtain ⟨n, r⟩ := found
        have hword := mem_pattern_iff.mpr ⟨n, wellFormed_of_scan? hscan, rfl⟩
        exact absurd ⟨r, text_append_of_scan? hscan⟩ (hno _ hword)

/-! ### The texts of doubles -/

/-- `inf`, `infinity` and `nan`, in small letters or capitals. -/
def named : Language Char :=
  {s | s.map Char.toLower ∈ ["inf".toList, "infinity".toList, "nan".toList]}

/-- `[0-9]+|[0-9]+\.[0-9]*|[0-9]*\.[0-9]+` -/
def number : Language Char := digits + digits * {['.']} * digit∗ + digit∗ * {['.']} * digits

/-- The texts that are converted to doubles: a name or a number with an exponent, after a sign. -/
def literal : Language Char := sign? * (named + number * exponent?)

/-- Digits, a point and digits are among both of the other ways to write a point. -/
theorem number_eq : number = magnitude := by
  have hstar : digit∗ = 1 + digits := (Language.one_add_self_mul_kstar_eq_kstar digit).symm
  have habsorbed : digit∗ * {['.']} * digits + digits * {['.']} * digits =
      digit∗ * {['.']} * digits := by
    rw [hstar, add_mul, add_mul, one_mul, add_assoc, add_idem]
  calc
    number = digits + digits * {['.']} + digits * {['.']} * digits +
        digit∗ * {['.']} * digits := by
      rw [number, hstar, mul_add, mul_one, ← add_assoc]
    _ = digit∗ * {['.']} * digits + digits * {['.']} * digits + digits * (1 + {['.']}) := by
      rw [mul_add, mul_one]
      ac_rfl
    _ = magnitude := by rw [habsorbed, magnitude]

/-- The pattern leaves out the names of the doubles that are no numbers, and nothing else. -/
theorem literal_eq : literal = sign? * named + pattern := by
  rw [literal, number_eq, mul_add, pattern, mul_assoc]

/-- **What is found can be converted.** -/
theorem text_mem_literal {s r : List Char} {n : Numeral} (h : scan? s = some (n, r)) :
    n.text ∈ literal := by
  rw [literal_eq]
  exact .inr (mem_pattern_iff.mpr ⟨n, wellFormed_of_scan? h, rfl⟩)

end InfixArith.Numeral
