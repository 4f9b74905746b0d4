import InfixArith.Proofs.Binary64.Roundings
import InfixArith.Proofs.Rounding.Figures

/-!
# Rounding — from decimals to doubles

A decimal becomes a double in several roundings: its fraction is a quotient of two doubles, the sum
with its whole part is multiplied with a power of ten, rounded to a whole number and divided by that
power again.  The powers of ten up to `10 ^ 22` are doubles; where no further one is needed and
there are fifteen figures at most, the whole number is the coefficient again, and the last quotient
is the nearest double (`toFloat_nearest`).  Otherwise the error is small still
(`toFloat_approximates`).
-/

namespace InfixArith

namespace Fixed

open Binary64

/-! ### Powers of ten -/

/-- Powers of ten by repeated squaring, for as many places as a decimal can get. -/
theorem powNat_ten {p : Nat} (hp : p < 44) :
    Approximates (powNat 10 p) 2 (10 ^ p : Nat) ∧
      (p ≤ 22 → Approximates (powNat 10 p) 0 (10 ^ p : Nat)) := by
  have hall : ∀ p < 44, isNegative (powNat 10 p) = false ∧ rank (powNat 10 p) < infinity ∧
      (2 ^ 53 - 1) ^ 2 * (10 ^ p * unitsOfOne) ≤ 2 ^ 106 * units (rank (powNat 10 p)) ∧
      (2 ^ 53 - 1) ^ 2 * units (rank (powNat 10 p)) ≤ 2 ^ 106 * (10 ^ p * unitsOfOne) ∧
      (p ≤ 22 → units (rank (powNat 10 p)) = 10 ^ p * unitsOfOne) := by
    decide +kernel
  obtain ⟨hsign, hfin, hlow, hhigh, hexact⟩ := hall p hp
  have hone : (0 : ℚ) < unitsOfOne := by exact_mod_cast unitsOfOne_pos
  have hkept : kept ^ 2 = ((2 ^ 53 - 1) ^ 2 : Nat) / (2 ^ 106 : Nat) := by norm_num [kept]
  have hrank : powNat 10 p = ofRank false (rank (powNat 10 p)) := by rw [← hsign, ofRank_rank]
  refine ⟨⟨_, hfin, hrank, ?_, ?_⟩, fun hp => ?_⟩
  · rw [hkept, magnitude, div_mul_eq_mul_div, div_le_div_iff₀ (by norm_num) hone, mul_assoc,
      mul_comm ((units _ : Nat) : ℚ)]
    exact_mod_cast hlow
  · rw [hkept, magnitude, div_mul_div_comm, div_le_iff₀ (mul_pos (by norm_num) hone),
      mul_left_comm]
    exact_mod_cast hhigh
  · have hmagnitude : magnitude (rank (powNat 10 p)) = (10 ^ p : Nat) := by
      rw [magnitude, hexact hp, Nat.cast_mul, mul_div_cancel_right₀ _ hone.ne']
    rw [hrank, ← hmagnitude]
    exact .of_rank hfin

theorem one_le_pow_ten (p : Nat) : (1 : ℚ) ≤ (10 ^ p : Nat) := by
  exact_mod_cast Nat.pow_pos (by decide)

theorem pow_ten_pos (p : Nat) : (0 : ℚ) < (10 ^ p : Nat) :=
  lt_of_lt_of_le one_pos (one_le_pow_ten p)

/-- No decimal is far from one, as doubles go. -/
theorem moderate_value {c p : Nat} (hc0 : c ≠ 0) (hp : p < 44) (hc : c ≤ 10 ^ 29) :
    Moderate (c / (10 ^ p : Nat)) := by
  have htop : ((10 ^ p : Nat) : ℚ) ≤ 10 ^ 43 := by
    exact_mod_cast Nat.pow_le_pow_right (by decide) (Nat.le_of_lt_succ hp)
  have hc1 : (1 : ℚ) ≤ c := by exact_mod_cast Nat.pos_of_ne_zero hc0
  have hc' : (c : ℚ) ≤ 10 ^ 29 := by exact_mod_cast hc
  constructor
  · rw [div_le_div_iff₀ (by norm_num) (pow_ten_pos p), one_mul]
    calc
      ((10 ^ p : Nat) : ℚ) ≤ 1 * 10 ^ 50 := htop.trans (by norm_num)
      _ ≤ c * 10 ^ 50 := mul_le_mul_of_nonneg_right hc1 (by norm_num)
  · exact (div_le_self (Nat.cast_nonneg c) (one_le_pow_ten p)).trans (hc'.trans (by norm_num))

theorem moderate_natCast {c : Nat} (hc0 : c ≠ 0) (hc : c ≤ 10 ^ 29) : Moderate c := by
  have h := moderate_value hc0 (show 0 < 44 by decide) hc
  rwa [Nat.pow_zero, Nat.cast_one, div_one] at h

theorem approximates_pow_ten {p : Nat} (hp : p < 44) :
    Approximates (ofNat (10 ^ p)) 1 (10 ^ p : Nat) := by
  have hmoderate : Moderate ((10 ^ p : Nat) : ℚ) := by
    refine ⟨le_trans (by norm_num) (one_le_pow_ten p), ?_⟩
    exact_mod_cast Nat.pow_le_pow_right (by decide) (by omega)
  rw [ofNat_eq]
  exact .of_nearest hmoderate

/-! ### Whole numbers -/

theorem toFloat_whole (c : Nat) : toFloat ⟨c, 0⟩ = ofRank false (nearestTo c) := by
  rw [toFloat, if_pos rfl, ofNat_eq]

variable {c p : Nat}

/-- Where there is no fraction the whole part is rounded. -/
theorem toFloat_of_dvd (hp : p < 44) (hzero : c % 10 ^ p = 0) :
    toFloat ⟨c, p⟩ = ofRank false (nearestTo (c / (10 ^ p : Nat))) := by
  obtain ⟨t, ht, hround, hnear⟩ := approximates_pow_ten hp
  have hfraction : ofNat (c % 10 ^ p) / ofNat (10 ^ p) = ofRank false 0 := by
    rw [hzero, hround, ofNat_eq, Nat.cast_zero, nearestTo_zero, ofRank_div (by decide) ht
      (Approximates.magnitude_pos (pow_ten_pos p) hnear).2, magnitude_zero, zero_div,
      nearestTo_zero]
  have hwhole : ((c / 10 ^ p : Nat) : ℚ) = c / (10 ^ p : Nat) :=
    Nat.cast_div (Nat.dvd_of_mod_eq_zero hzero) (by positivity)
  rw [toFloat]
  split
  · next h0 =>
    dsimp only at h0 ⊢
    rw [h0, Nat.pow_zero, Nat.cast_one, div_one, ofNat_eq]
  · have hbeq : (ofRank false 0 == 0) = true := ofRank_beq_zero (by decide)
    dsimp only
    rw [Nat.pow_eq, hfraction, hbeq, if_pos rfl, ofNat_eq, hwhole]

/-- The whole number nearest to a double that is near `c` is `c`. -/
theorem roundHalfAway_near {v : Float} (hc : c ≤ 10 ^ 15) (h : Approximates v 3 c) :
    roundHalfAway v = ofNat c := by
  obtain ⟨k, hk, rfl, hnear⟩ := h
  have hc' : (c : ℚ) ≤ 10 ^ 15 := by exact_mod_cast hc
  have hk0 := magnitude_nonneg k
  -- three roundings of fifteen figures are less than one half
  obtain ⟨hlow, hhigh⟩ := abs_le.mp
    (hnear.abs_sub_le (c := 4 / 2 ^ 53) (by norm_num [kept]) (by norm_num) (Nat.cast_nonneg c))
  have hfloor : ⌊magnitude k + 1 / 2⌋₊ = c :=
    (Nat.floor_eq_iff (by linarith)).mpr ⟨by linarith, by linarith⟩
  rw [roundHalfAway_ofRank hk, hfloor, ofNat_eq]

/-- The whole number nearest to a double that is near `c` is near `c`. -/
theorem approximates_roundHalfAway {v : Float} (hc0 : c ≠ 0) (hc : c ≤ 10 ^ 29)
    (h : Approximates v 7 c) : Approximates (roundHalfAway v) 18 c := by
  obtain ⟨k, hk, rfl, hnear⟩ := h
  have hc' : (0 : ℚ) ≤ c := Nat.cast_nonneg c
  have hk0 := magnitude_nonneg k
  obtain ⟨hlow, hhigh⟩ := abs_le.mp
    (hnear.abs_sub_le (c := 8 / 2 ^ 53) (by norm_num [kept]) (by norm_num) hc')
  obtain ⟨n, hn⟩ : ∃ n, n = ⌊magnitude k + 1 / 2⌋₊ := ⟨_, rfl⟩
  have hfloor := (Nat.floor_eq_iff (by linarith)).mp hn.symm
  have hwhole : Apart 17 (n : ℚ) c := by
    refine Apart.of_abs_sub_le (c := 16 / 2 ^ 53) (by norm_num [kept]) (by norm_num [kept]) hc'
      (abs_le.mpr ?_)
    -- where the whole numbers differ, the double is one half away from `c` already
    rcases Nat.lt_trichotomy n c with hlt | rfl | hgt
    · have : (n : ℚ) + 1 ≤ c := by exact_mod_cast hlt
      constructor <;> linarith
    · constructor <;> linarith
    · have : (c : ℚ) + 1 ≤ n := by exact_mod_cast hgt
      constructor <;> linarith
  obtain ⟨hfin, hround⟩ := (moderate_natCast hc0 hc).rounded (by decide) hwhole
  rw [roundHalfAway_ofRank hk, ← hn]
  exact ⟨_, hfin, rfl, hround⟩

/-! ### Fractions -/

/-- A decimal with a fraction, scaled to a whole number. -/
def scaled (c p : Nat) : Float :=
  (ofNat (c / 10 ^ p) + ofNat (c % 10 ^ p) / ofNat (10 ^ p)) * powNat 10 p

section

variable {a b e : Nat} (hp0 : p ≠ 0) (hp : p < 44) (hc : c ≤ 10 ^ 16) (hrest : c % 10 ^ p ≠ 0)
  (ha : Approximates (ofNat (c % 10 ^ p)) a (c % 10 ^ p : Nat))
  (hb : Approximates (ofNat (10 ^ p)) b (10 ^ p : Nat))

include hp hc hrest ha hb

theorem approximates_fraction (hab : a + b ≤ 64) :
    Approximates (ofNat (c % 10 ^ p) / ofNat (10 ^ p)) (1 + (a + b))
      ((c % 10 ^ p : Nat) / (10 ^ p : Nat)) := by
  have hle : c % 10 ^ p ≤ 10 ^ 29 := (Nat.mod_le _ _).trans (hc.trans (by norm_num))
  exact ha.div (Nat.cast_nonneg _) (pow_ten_pos p) hab (moderate_value hrest hp hle) hb

include hp0

/-- Scaling takes the roundings of its operands and three more. -/
theorem approximates_scaled (hab : a + b + e ≤ 60)
    (he : Approximates (powNat 10 p) e (10 ^ p : Nat)) :
    Approximates (scaled c p) (a + b + e + 3) c := by
  have hfraction := approximates_fraction hp hc hrest ha hb (by omega)
  have hpos := pow_ten_pos p
  have hc0 : c ≠ 0 := by
    rintro rfl
    exact hrest (Nat.zero_mod _)
  have hparts : ((c / 10 ^ p : Nat) : ℚ) + (c % 10 ^ p : Nat) / (10 ^ p : Nat) =
      c / (10 ^ p : Nat) := by
    have hdiv : (c : ℚ) = (10 ^ p : Nat) * (c / 10 ^ p : Nat) + (c % 10 ^ p : Nat) := by
      exact_mod_cast (Nat.div_add_mod c (10 ^ p)).symm
    rw [hdiv, add_div, mul_div_cancel_left₀ _ hpos.ne']
  have hwhole : Approximates (ofNat (c / 10 ^ p)) (1 + (a + b)) (c / 10 ^ p : Nat) := by
    have hlt : c / 10 ^ p < 2 * binade := calc
      c / 10 ^ p ≤ c / 10 := Nat.div_le_div_left (Nat.le_self_pow hp0 10) (by decide)
      _ ≤ 10 ^ 16 / 10 := Nat.div_le_div_right hc
      _ < 2 * binade := by decide
    exact (approximates_ofNat hlt).mono (Nat.zero_le _) (Nat.cast_nonneg _)
  have hmoderate : Moderate (c / (10 ^ p : Nat)) := moderate_value hc0 hp (hc.trans (by norm_num))
  have hsum := hwhole.add (by omega) (by rwa [hparts]) hfraction
  rw [hparts] at hsum
  have hproduct : (c : ℚ) / (10 ^ p : Nat) * (10 ^ p : Nat) = c := div_mul_cancel₀ _ hpos.ne'
  have h := hsum.mul hmoderate.pos.le hpos.le (by omega)
    (by rw [hproduct]; exact moderate_natCast hc0 (hc.trans (by norm_num))) he
  rw [hproduct] at h
  exact h.mono (by omega) (Nat.cast_nonneg c)

theorem toFloat_eq (hab : a + b ≤ 64) :
    toFloat ⟨c, p⟩ = roundHalfAway (scaled c p) / powNat 10 p := by
  have hfraction := approximates_fraction hp hc hrest ha hb hab
  have hbeq : (ofNat (c % 10 ^ p) / ofNat (10 ^ p) == 0) = false :=
    hfraction.beq_zero (div_pos (by exact_mod_cast Nat.pos_of_ne_zero hrest) (pow_ten_pos p))
  rw [toFloat, if_neg hp0]
  dsimp only
  rw [Nat.pow_eq, hbeq]
  rfl

end

/-- **The nearest double**, for a decimal of fifteen figures with 22 places at most. -/
theorem toFloat_nearest (hc : c ≤ 10 ^ 15) (hp : p ≤ 22) :
    toFloat ⟨c, p⟩ = ofRank false (nearestTo (c / (10 ^ p : Nat))) := by
  by_cases hrest : c % 10 ^ p = 0
  · exact toFloat_of_dvd (by omega) hrest
  · have hp0 : p ≠ 0 := by
      rintro rfl
      exact hrest (Nat.mod_one c)
    have hc' : c ≤ 10 ^ 16 := hc.trans (by norm_num)
    have hmantissa : ∀ {m}, m ≤ c → Approximates (ofNat m) 0 m := fun h =>
      approximates_ofNat (Nat.lt_of_le_of_lt (h.trans hc) (by decide))
    have ha := hmantissa (Nat.mod_le c (10 ^ p))
    have he := (powNat_ten (show p < 44 by omega)).2 hp
    have hb : Approximates (ofNat (10 ^ p)) 0 (10 ^ p : Nat) := by
      obtain ⟨t, ht, -, hmagnitude⟩ := he.exists_exact
      rw [ofNat_eq, ← hmagnitude, nearestTo_magnitude ht]
      exact .of_rank ht
    have hscaled := approximates_scaled hp0 (by omega) hc' hrest ha hb (by decide) he
    rw [toFloat_eq hp0 (by omega) hc' hrest ha hb (by decide), roundHalfAway_near hc hscaled]
    exact (hmantissa (Nat.le_refl c)).div_exact (pow_ten_pos p) he

/-- How far the double for a decimal is from it. -/
theorem toFloat_approximates (hc0 : c ≠ 0) (hp : p < 44)
    (hc : c ≤ 10 ^ 16 ∨ p = 0 ∧ c < coefficientBound) :
    Approximates (toFloat ⟨c, p⟩) 21 (c / (10 ^ p : Nat)) := by
  have hmoderate : Moderate (c / (10 ^ p : Nat) : ℚ) := by
    refine moderate_value hc0 hp ?_
    unfold coefficientBound at hc
    omega
  by_cases hrest : c % 10 ^ p = 0
  · rw [toFloat_of_dvd hp hrest]
    exact (Approximates.of_nearest hmoderate).mono (by decide) hmoderate.pos.le
  · have hp0 : p ≠ 0 := by
      rintro rfl
      exact hrest (Nat.mod_one c)
    have hc : c ≤ 10 ^ 16 := hc.resolve_right fun h => hp0 h.1
    have ha : Approximates (ofNat (c % 10 ^ p)) 1 (c % 10 ^ p : Nat) := by
      rw [ofNat_eq]
      exact .of_nearest (moderate_natCast hrest ((Nat.mod_le _ _).trans (hc.trans (by norm_num))))
    have hb := approximates_pow_ten hp
    have he := (powNat_ten hp).1
    have hscaled := approximates_scaled hp0 hp hc hrest ha hb (by decide) he
    have hround := approximates_roundHalfAway hc0 (hc.trans (by norm_num)) hscaled
    rw [toFloat_eq hp0 hp hc hrest ha hb (by decide)]
    exact hround.div (Nat.cast_nonneg c) (pow_ten_pos p) (by decide) hmoderate he

end Fixed

end InfixArith
