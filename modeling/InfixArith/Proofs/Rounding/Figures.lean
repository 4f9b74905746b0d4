import InfixArith.Rounding.SignificantFigures
import Mathlib

/-!
# Rounding — decimals are rounded exactly

What `Fixed.round?` gives is the decimal rounded to so many significant figures, a half up, as a
number (`round?_eq_some`): figures are counted from the first digit, wherever the point is.
-/

namespace InfixArith

/-! ### Significant figures -/

/-- The positive number `x` rounded to `n` significant figures, a half up. -/
def Rounding.roundFigures (n : Nat) (x : ℚ) : ℚ :=
  let unit : ℚ := 10 ^ (Int.log 10 x + 1 - n)
  ⌊x / unit + 1 / 2⌋₊ * unit

theorem Rounding.log_eq {x : ℚ} {z : Int} (hlow : 10 ^ z ≤ x) (hhigh : x < 10 ^ (z + 1)) :
    Int.log 10 x = z := by
  have hx : 0 < x := lt_of_lt_of_le (by positivity) hlow
  have hge : z ≤ Int.log 10 x :=
    (Int.zpow_le_iff_le_log (by decide) hx).mp (by exact_mod_cast hlow)
  have hlt : Int.log 10 x < z + 1 :=
    (Int.lt_zpow_iff_log_lt (by decide) hx).mp (by exact_mod_cast hhigh)
  omega

namespace Fixed

open Rounding

variable {f g : Fixed} {n : Nat}

/-- The number that a decimal stands for. -/
def value (f : Fixed) : ℚ := f.coefficient / 10 ^ f.places

theorem value_eq (f : Fixed) : f.value = f.coefficient * 10 ^ (-(f.places : Int)) := by
  rw [value, zpow_neg, zpow_natCast, div_eq_mul_inv]

/-- The first digit of a decimal by its figures and places. -/
theorem log_value (hf : f.coefficient ≠ 0) :
    Int.log 10 f.value = (Nat.toDigits 10 f.coefficient).length - 1 - f.places := by
  obtain ⟨l, hl⟩ : ∃ l, (Nat.toDigits 10 f.coefficient).length = l + 1 :=
    Nat.exists_eq_add_one.mpr Nat.length_toDigits_pos
  have hhigh : f.coefficient < 10 ^ (l + 1) :=
    (Nat.length_toDigits_le_iff (by decide) (Nat.succ_pos l)).mp hl.le
  have hlow : 10 ^ l ≤ f.coefficient := by
    by_contra hlt
    rcases Nat.eq_zero_or_pos l with rfl | hpos
    · omega
    · have := (Nat.length_toDigits_le_iff (b := 10) (by decide) hpos).mpr (Nat.lt_of_not_le hlt)
      omega
  have hten : (0 : ℚ) < 10 ^ (-(f.places : Int)) := by positivity
  rw [hl, f.value_eq]
  refine log_eq ?_ ?_
  · have hexponent : ((l + 1 : Nat) : Int) - 1 - f.places = l + -(f.places : Int) := by omega
    rw [hexponent, zpow_add₀ (by norm_num), zpow_natCast]
    exact mul_le_mul_of_nonneg_right (by exact_mod_cast hlow) hten.le
  · have hexponent : ((l + 1 : Nat) : Int) - 1 - f.places + 1 =
        (l + 1 : Nat) + -(f.places : Int) := by omega
    rw [hexponent, zpow_add₀ (by norm_num), zpow_natCast]
    exact mul_lt_mul_of_pos_right (by exact_mod_cast hhigh) hten

theorem divPowTen_eq (m k : Nat) : divPowTen m k = ⌊(m : ℚ) / 10 ^ k + 1 / 2⌋₊ := by
  rw [divPowTen, ← Nat.floor_div_eq_div (K := ℚ), Nat.pow_eq]
  congr 1
  push_cast
  field_simp

/-- A number of `n + k` digits, rounded to `n`. -/
theorem divPowTen_le {m k : Nat} (h : m < 10 ^ (n + k)) : divPowTen m k ≤ 10 ^ n := by
  have hpos : 0 < 10 ^ k := Nat.pow_pos (by decide)
  have hdouble : (10 ^ n + 1) * (2 * 10 ^ k) = 2 * 10 ^ (n + k) + 2 * 10 ^ k := by
    rw [Nat.pow_add]
    ring
  rw [divPowTen, Nat.pow_eq]
  refine Nat.le_of_lt_succ ((Nat.div_lt_iff_lt_mul (by omega)).mpr ?_)
  exact Nat.lt_of_lt_of_eq (by omega) hdouble.symm

theorem floor_natCast_add_half (m : Nat) : ⌊(m : ℚ) + 1 / 2⌋₊ = m :=
  (Nat.floor_eq_iff (by positivity)).mpr ⟨by linarith, by linarith⟩

/-- Rounding to a unit moves the point and rounds to a whole number. -/
theorem roundFigures_value {k : Int} (h : Int.log 10 f.value + 1 - n = k - f.places) :
    roundFigures n f.value =
      ⌊(f.coefficient : ℚ) / 10 ^ k + 1 / 2⌋₊ * 10 ^ (k - f.places) := by
  have hunit : f.value / 10 ^ (k - f.places) = f.coefficient / 10 ^ k := by
    rw [value, zpow_sub₀ (by norm_num), zpow_natCast]
    field_simp
  rw [roundFigures, h, hunit]

/-- How many figures a decimal is written with. -/
def figures (f : Fixed) : Nat := (Nat.toDigits 10 f.coefficient).length

theorem coefficient_lt (f : Fixed) : f.coefficient < 10 ^ f.figures :=
  (Nat.length_toDigits_le_iff (by decide) Nat.length_toDigits_pos).mp (Nat.le_refl f.figures)

/-- A decimal has at least one figure, so no more than `n - 1` are filled up. -/
theorem places_le_of_round? (h : f.round? n = some g) : g.places ≤ f.places + (n - 1) := by
  have hpos : 0 < f.figures := Nat.length_toDigits_pos
  rw [round?, ← figures] at h
  dsimp only at h
  split at h
  · cases h
    dsimp only
    omega
  · split at h
    · cases h
      exact (Nat.sub_le _ _).trans (Nat.le_add_right _ _)
    · split at h
      · cases h
        exact Nat.zero_le _
      · cases h

/-- `g` is `f` rounded to `n` figures, with the places that these need. -/
structure RoundedTo (n : Nat) (f g : Fixed) : Prop where
  value_eq : g.value = roundFigures n f.value
  places_eq : (g.places : Int) = max (n - 1 - Int.log 10 f.value) 0
  size : g.coefficient ≤ 10 ^ n ∨ g.places = 0 ∧ g.coefficient < coefficientBound

section

variable {k : Nat} (hf : f.coefficient ≠ 0)

include hf

/-- Zeros are put after the last figure. -/
theorem roundedTo_filled (hk : n = f.figures + k) :
    RoundedTo n f ⟨f.coefficient * 10 ^ k, f.places + k⟩ := by
  have hlog := log_value hf
  rw [← figures] at hlog
  have hwhole : (f.coefficient : ℚ) / 10 ^ (-(k : Int)) = (f.coefficient * 10 ^ k : Nat) := by
    rw [zpow_neg, div_inv_eq_mul, zpow_natCast]
    push_cast
    rfl
  have hlt : f.coefficient * 10 ^ k < 10 ^ n := by
    rw [hk, Nat.pow_add]
    exact Nat.mul_lt_mul_of_pos_right f.coefficient_lt (Nat.pow_pos (by decide))
  refine ⟨?_, by dsimp only; omega, .inl hlt.le⟩
  rw [roundFigures_value (k := -k) (by omega), hwhole, floor_natCast_add_half, value_eq]
  dsimp only
  congr 2
  omega

/-- Figures are dropped: all that counts is the coefficient divided by a power of ten. -/
theorem roundFigures_dropped (hk : f.figures = n + k) :
    roundFigures n f.value = divPowTen f.coefficient k * 10 ^ ((k : Int) - f.places) := by
  have hlog := log_value hf
  rw [← figures] at hlog
  rw [roundFigures_value (k := k) (by omega), divPowTen_eq, zpow_natCast]

/-- Figures are dropped after the point. -/
theorem roundedTo_places (hk : f.figures = n + k) (hle : k ≤ f.places) :
    RoundedTo n f ⟨divPowTen f.coefficient k, f.places - k⟩ := by
  have hlog := log_value hf
  rw [← figures] at hlog
  refine ⟨?_, by dsimp only; omega, .inl (divPowTen_le (hk ▸ f.coefficient_lt))⟩
  rw [roundFigures_dropped hf hk, value_eq]
  dsimp only
  congr 2
  omega

/-- Figures are dropped before the point, and zeros stand in their places. -/
theorem roundedTo_whole (hk : f.figures = n + k) (hgt : f.places < k)
    (hfits : divPowTen f.coefficient k * 10 ^ (k - f.places) < coefficientBound) :
    RoundedTo n f ⟨divPowTen f.coefficient k * 10 ^ (k - f.places), 0⟩ := by
  have hlog := log_value hf
  rw [← figures] at hlog
  refine ⟨?_, by dsimp only; omega, .inr ⟨rfl, hfits⟩⟩
  have hexponent : (k : Int) - f.places = (k - f.places : Nat) := by omega
  rw [roundFigures_dropped hf hk, value_eq, hexponent, zpow_natCast]
  dsimp only
  rw [Nat.cast_zero, neg_zero, zpow_zero, mul_one]
  push_cast
  rfl

/-- **Decimals are rounded exactly.** -/
theorem round?_eq_some (h : f.round? n = some g) : RoundedTo n f g := by
  rw [round?, ← figures] at h
  simp only [Nat.pow_eq] at h
  split at h
  · next hle =>
    cases h
    exact roundedTo_filled hf (Nat.add_sub_cancel' hle).symm
  · next hlt =>
    have hk : f.figures = n + (f.figures - n) := by omega
    split at h
    · next hle =>
      cases h
      exact roundedTo_places hf hk hle
    · next hgt =>
      split at h
      · next hfits =>
        cases h
        exact roundedTo_whole hf hk (Nat.lt_of_not_le hgt) hfits
      · cases h

end

end Fixed

end InfixArith
