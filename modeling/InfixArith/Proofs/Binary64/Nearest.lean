import InfixArith.Binary64
import Mathlib.Tactic.NormNum

/-!
# Binary64 — rounding to the nearest magnitude

`nearest n d` depends on the fraction `n / d` only (`nearest_mul`), and a fraction that is a
magnitude is rounded to itself (`nearest_units`).

`ofDecimal` gives very large and very small decimals without computing their powers of ten; there
it agrees with `nearest` (`ofDecimal_eq_nearest`).  So it too depends on the value of the decimal
only: zeros at the end of the coefficient may be moved into the exponent
(`ofDecimal_mul_pow`).
-/

namespace InfixArith.Binary64

/-! ### Fractions -/

theorem roundHalfEven_mul (n d : Nat) {c : Nat} (hc : 0 < c) :
    roundHalfEven (n * c) (d * c) = roundHalfEven n d := by
  have hlt : 2 * (n % d * c) < d * c ↔ 2 * (n % d) < d := by
    rw [← Nat.mul_assoc, Nat.mul_lt_mul_right hc]
  have hgt : d * c < 2 * (n % d * c) ↔ d < 2 * (n % d) := by
    rw [← Nat.mul_assoc, Nat.mul_lt_mul_right hc]
  simp only [roundHalfEven, Nat.mul_div_mul_right _ _ hc, Nat.mul_mod_mul_right, hlt, hgt]

/-- Only the value of a fraction counts. -/
theorem nearest_mul (n d : Nat) {c : Nat} (hc : 0 < c) : nearest (n * c) (d * c) = nearest n d := by
  simp only [nearest, Nat.mul_div_mul_right _ _ hc]
  rw [Nat.mul_right_comm, roundHalfEven_mul _ _ hc]

theorem nearest_congr {n d n' d' : Nat} (hd : 0 < d) (hd' : 0 < d') (h : n * d' = n' * d) :
    nearest n d = nearest n' d' := by
  rw [← nearest_mul n d hd', h, Nat.mul_comm d d', nearest_mul n' d' hd]

theorem roundHalfEven_mul_self (q : Nat) {d : Nat} (hd : 0 < d) : roundHalfEven (q * d) d = q := by
  simp only [roundHalfEven, Nat.mul_mod_left, Nat.mul_div_cancel _ hd]
  rw [if_pos (by omega)]

theorem two_pow_log2_add_le {m : Nat} (hm : m ≠ 0) (t : Nat) : 2 ^ (m.log2 + t) ≤ m * 2 ^ t := by
  rw [Nat.pow_add]
  exact Nat.mul_le_mul_right _ (Nat.log2_self_le hm)

theorem mul_two_pow_lt (m t : Nat) : m * 2 ^ t < 2 ^ (m.log2 + t + 1) := by
  rw [Nat.add_right_comm, Nat.pow_add]
  exact Nat.mul_lt_mul_of_pos_right Nat.lt_log2_self (Nat.two_pow_pos t)

/-- The number of a magnitude counts the binades below it and its place in its own. -/
theorem scale_mul_binade_add_mantissa (k : Nat) : scale k * binade + mantissa k = k := by
  have hdiv := Nat.div_add_mod k binade
  unfold scale mantissa
  split
  · next hk => rw [Nat.div_eq_of_lt hk, Nat.zero_sub, Nat.zero_mul, Nat.zero_add]
  · next hk =>
    obtain ⟨q, hq⟩ : ∃ q, k / binade = q + 1 :=
      Nat.exists_eq_add_one.mpr (Nat.div_pos (by omega) (by decide))
    rw [hq, Nat.mul_add, Nat.mul_comm binade q] at hdiv
    rw [hq, Nat.add_sub_cancel]
    omega

/-- The leading bit of a magnitude beyond the least ones is the leading bit of its mantissa. -/
theorem log2_units (k : Nat) : (units k).log2 - 52 = scale k := by
  by_cases hk : k < binade
  · have hscale : scale k = 0 := by rw [scale, Nat.div_eq_of_lt hk]
    have hlog : k.log2 ≤ 52 := by
      by_cases h0 : k = 0
      · rw [h0]
        decide
      · exact Nat.le_of_lt_succ ((Nat.log2_lt h0).mpr (Nat.lt_trans hk (by decide)))
    rw [units, mantissa, if_pos hk, hscale, Nat.pow_eq, Nat.pow_zero, Nat.mul_one]
    omega
  · have hlo : 2 ^ 52 ≤ mantissa k := by
      rw [mantissa, if_neg hk]
      exact Nat.le_add_right _ _
    have hhi : mantissa k < 2 ^ 53 := by
      rw [mantissa, if_neg hk]
      have := Nat.mod_lt k (show binade > 0 by decide)
      unfold binade at *
      omega
    have hlog : (units k).log2 = 52 + scale k := by
      refine (Nat.log2_eq_iff (Nat.mul_pos (by omega) (Nat.two_pow_pos _)).ne').mpr ⟨?_, ?_⟩
      · rw [Nat.pow_add]
        exact Nat.mul_le_mul_right _ hlo
      · rw [Nat.add_right_comm, Nat.pow_add]
        exact Nat.mul_lt_mul_of_pos_right hhi (Nat.two_pow_pos _)
    omega

/-- A magnitude is the nearest one to itself. -/
theorem nearest_units {k : Nat} (hk : k < infinity) : nearest (units k) 1 = k := by
  have hunits : units k = mantissa k * (1 * Nat.pow 2 (scale k)) := by rw [units, Nat.one_mul]
  have hpos : 0 < 1 * Nat.pow 2 (scale k) := by
    rw [Nat.one_mul]
    exact Nat.two_pow_pos _
  simp only [nearest, Nat.div_one, log2_units]
  rw [hunits, roundHalfEven_mul_self _ hpos, scale_mul_binade_add_mantissa, Nat.min_eq_right hk.le]

/-! ### Decimals -/

-- Large exponents are kept apart from their powers, so that these are not computed.
theorem unitsOfOne_eq_pow {u : Nat} (hu : u = 1074) : unitsOfOne = 2 ^ u := by
  unfold unitsOfOne
  generalize 1074 = v at hu
  rw [hu, Nat.pow_eq]

theorem unitsOfOne_pos : 0 < unitsOfOne := by
  obtain ⟨u, hu⟩ : ∃ u, u = 1074 := ⟨_, rfl⟩
  rw [unitsOfOne_eq_pow hu]
  exact Nat.two_pow_pos u

theorem two_pow_le_ten_pow (j : Nat) : 2 ^ (205 * j) ≤ 10 ^ (62 * j) := by
  rw [Nat.pow_mul, Nat.pow_mul]
  exact Nat.pow_le_pow_left (by norm_num) j

/-- From `10 ^ 310` on a decimal is beyond the finite magnitudes. -/
theorem nearest_large {m k : Nat} (hm : m ≠ 0) (hk : 310 ≤ k) :
    nearest (m * 10 ^ k * unitsOfOne) 1 = infinity := by
  obtain ⟨u, hu⟩ : ∃ u, u = 1074 := ⟨_, rfl⟩
  obtain ⟨j, hj⟩ : ∃ j, j = 5 := ⟨_, rfl⟩
  -- five times 205 bits and those of the unit lie beyond the greatest binade
  have hten : 2 ^ (205 * j) ≤ 10 ^ k :=
    Nat.le_trans (two_pow_le_ten_pow j) (Nat.pow_le_pow_right (by decide) (by omega))
  have hlarge : 2 ^ (205 * j + u) ≤ m * 10 ^ k * unitsOfOne := by
    rw [Nat.pow_add, unitsOfOne_eq_pow hu]
    exact Nat.mul_le_mul_right _ (Nat.le_trans hten (Nat.le_mul_of_pos_left _ (by omega)))
  have hne : m * 10 ^ k * unitsOfOne ≠ 0 := (Nat.lt_of_lt_of_le (Nat.two_pow_pos _) hlarge).ne'
  have hlog : 205 * j + u ≤ (m * 10 ^ k * unitsOfOne).log2 := (Nat.le_log2 hne).mpr hlarge
  simp only [nearest, Nat.div_one]
  refine Nat.min_eq_left (Nat.le_trans ?_ (Nat.le_add_right _ _))
  exact Nat.le_trans (show infinity ≤ 2047 * binade by decide)
    (Nat.mul_le_mul_right _ (by omega))

/-- A fraction below one half is rounded to zero. -/
theorem nearest_small {n d : Nat} (h : 2 * n < d) : nearest n d = 0 := by
  have hd : n / d = 0 := Nat.div_eq_of_lt (by omega)
  have hs : (0 : Nat).log2 - 52 = 0 := by decide
  have hr : roundHalfEven n d = 0 := by
    simp only [roundHalfEven, Nat.mod_eq_of_lt (show n < d by omega), if_pos h, hd]
  simp only [nearest, hd, hs, Nat.zero_mul, Nat.pow_eq, Nat.pow_zero, Nat.mul_one, hr]
  exact Nat.min_zero _

/-- A coefficient of few bits over a large power of ten is below half the least magnitude. -/
theorem two_mul_units_lt {m k : Nat} (h : m.log2 + 1101 < 3 * k) :
    2 * (m * unitsOfOne) < 10 ^ k := by
  obtain ⟨u, hu⟩ : ∃ u, u = 1074 := ⟨_, rfl⟩
  calc
    2 * (m * unitsOfOne) = m * 2 ^ (u + 1) := by
      rw [unitsOfOne_eq_pow hu, Nat.pow_succ, Nat.mul_comm 2, Nat.mul_assoc]
    _ < 2 ^ (m.log2 + (u + 1) + 1) := mul_two_pow_lt m (u + 1)
    _ ≤ 2 ^ (3 * k) := Nat.pow_le_pow_right (by decide) (by omega)
    _ = 8 ^ k := Nat.pow_mul 2 3 k
    _ ≤ 10 ^ k := Nat.pow_le_pow_left (by decide) k

/-- A decimal is rounded as the fraction that it is. -/
theorem ofDecimal_eq_nearest (m : Nat) (e : Int) :
    ofDecimal m e = nearest (m * 10 ^ e.toNat * unitsOfOne) (10 ^ (-e).toNat) := by
  cases e with
  | ofNat k =>
      have hden : 10 ^ (-(k : Int)).toNat = 1 := by rw [Int.toNat_neg_natCast, Nat.pow_zero]
      rw [Int.ofNat_eq_natCast, Int.toNat_natCast, hden, ← Int.ofNat_eq_natCast, ofDecimal]
      split
      · next hm => rw [hm, Nat.zero_mul, Nat.zero_mul, nearest_small (by decide)]
      · next hm =>
        split
        · next hk => rw [nearest_large hm hk]
        · rfl
  | negSucc k =>
      have hnum : (Int.negSucc k).toNat = 0 := rfl
      have hden : (-Int.negSucc k).toNat = k + 1 := rfl
      rw [hnum, hden, Nat.pow_zero, Nat.mul_one, ofDecimal]
      split
      · next hm => rw [nearest_small (two_mul_units_lt hm)]
      · rfl

theorem ofDecimal_zero (e : Int) : ofDecimal 0 e = 0 := by
  rw [ofDecimal_eq_nearest, Nat.zero_mul, Nat.zero_mul]
  exact nearest_small (Nat.pow_pos (by decide))

/-- Zeros at the end of the coefficient may be moved into the exponent. -/
theorem ofDecimal_mul_pow (m j : Nat) (e : Int) :
    ofDecimal (m * 10 ^ j) e = ofDecimal m (e + j) := by
  rw [ofDecimal_eq_nearest, ofDecimal_eq_nearest]
  -- a power of ten that the denominator loses is cancelled, the others stay in the numerator
  obtain ⟨c, hnum, hden⟩ :
      ∃ c, j + e.toNat = (e + j).toNat + c ∧ (-e).toNat = (-(e + j)).toNat + c :=
    ⟨j + e.toNat - (e + j).toNat, by omega, by omega⟩
  have hpow : m * 10 ^ j * 10 ^ e.toNat * unitsOfOne =
      m * 10 ^ (e + j).toNat * unitsOfOne * 10 ^ c := by
    rw [Nat.mul_assoc m, ← Nat.pow_add, hnum, Nat.pow_add, ← Nat.mul_assoc, Nat.mul_right_comm]
  rw [hpow, hden, Nat.pow_add, nearest_mul _ _ (Nat.pow_pos (by decide))]

end InfixArith.Binary64
