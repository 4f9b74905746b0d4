import InfixArith.Proofs.Binary64.CutOff

/-!
# Binary64 — arithmetic is correctly rounded

Doubles are added, multiplied and divided as mantissas with exponents, and what comes out is rounded
once.  So each result is the double nearest to the exact one (`ofRank_add`, `ofRank_mul`,
`ofRank_div`); here that is said of doubles that are not negative, as numbers (`magnitude`).
-/

namespace InfixArith.Binary64

open Float.Model (Format totalExponent)
open Float.Model.UnpackedFloat

/-! ### Operands -/

theorem mantissa_pos {k : Nat} (h0 : k ≠ 0) : 0 < mantissa k := by
  unfold mantissa
  unfold binade
  split <;> omega

section

variable {b : BitVec Format.binary64.numBits} {k : Nat} (hb : b.toNat = k) (hk : k < infinity)

include hb hk

theorem unpackSign_magnitude : unpackSign b = 0#1 := by
  have h := toNat_unpackSign b
  rw [hb] at h
  apply BitVec.eq_of_toNat_eq
  rw [h, BitVec.toNat_ofNat]
  unfold infinity at hk
  omega

theorem unpackExponent_magnitude : (unpackExponent b).toNat = k / binade := by
  rw [toNat_unpackExponent, hb]
  unfold infinity at hk
  unfold binade at *
  omega

theorem unpackExponent_ne_full : unpackExponent b ≠ -1#11 := by
  intro h
  have hx := unpackExponent_magnitude hb hk
  have hones : (-1#11).toNat = 2047 := rfl
  rw [h, hones] at hx
  unfold infinity at hk
  unfold binade at *
  omega

theorem unpack_subnormal (h0 : k ≠ 0) (hlow : k < binade) :
    unpack .binary64 b = .finite .positive (mantissa k) (scale k - 1074) (mantissa_pos h0) := by
  have hbias : ((Format.exponentBias .binary64 : Nat) : Int) + (52 : Nat) = 1075 := rfl
  have hexponent : unpackExponent b = 0#11 := by
    apply BitVec.eq_of_toNat_eq
    rw [unpackExponent_magnitude hb hk, Nat.div_eq_of_lt hlow]
    rfl
  have hmantissa : (unpackMantissa b).toNat = k := by
    rw [toNat_unpackMantissa, hb]
    exact Nat.mod_eq_of_lt hlow
  have hne : unpackMantissa b ≠ 0#52 := by
    intro h
    rw [h] at hmantissa
    exact h0 hmantissa.symm
  have hscale : scale k = 0 := by rw [scale, Nat.div_eq_of_lt hlow]
  rw [unpack]
  simp only [unpackSign_magnitude hb hk, if_neg (unpackExponent_ne_full hb hk), hbias]
  rw [if_pos hexponent, dif_neg hne]
  congr 1
  · rw [hmantissa, mantissa, if_pos hlow]
  · rw [hexponent, hscale]
    rfl

theorem unpack_normal (h0 : k ≠ 0) (hlow : binade ≤ k) :
    unpack .binary64 b = .finite .positive (mantissa k) (scale k - 1074) (mantissa_pos h0) := by
  have hbias : ((Format.exponentBias .binary64 : Nat) : Int) + (52 : Nat) = 1075 := rfl
  have hpos : 0 < k / binade := Nat.div_pos hlow (by decide)
  have hx := unpackExponent_magnitude hb hk
  have hexponent : unpackExponent b ≠ 0#11 := by
    intro h
    rw [h] at hx
    exact hpos.ne hx
  have hfirst : (1#1 ++ unpackMantissa b).toNat = binade + (unpackMantissa b).toNat := by
    rw [BitVec.toNat_append, ← Nat.shiftLeft_add_eq_or_of_lt (unpackMantissa b).isLt,
      Nat.shiftLeft_eq]
    rfl
  rw [unpack]
  simp only [unpackSign_magnitude hb hk, if_neg (unpackExponent_ne_full hb hk), hbias]
  rw [if_neg hexponent]
  congr 1
  · rw [hfirst, toNat_unpackMantissa, hb, mantissa, if_neg (Nat.not_lt.mpr hlow)]
    rfl
  · rw [hx, scale]
    omega

end

/-- A magnitude is unpacked to its mantissa and exponent. -/
theorem unpack_ofRank {k : Nat} (hk : k < infinity) (h0 : k ≠ 0) :
    (ofRank false k).toModel.unpack =
      .finite .positive (mantissa k) (scale k - 1074) (mantissa_pos h0) := by
  have hb := toNat_toBits_ofRank false hk.le
  rcases Nat.lt_or_ge k binade with hlow | hlow
  · exact unpack_subnormal hb hk h0 hlow
  · exact unpack_normal hb hk h0 hlow

/-! ### Sums, products and quotients -/

theorem ofModel_pack {u : Float.Model.UnpackedFloat} {k : Nat} (hk : k ≤ infinity)
    (hu : (pack .binary64 u).toNat = k) : Float.ofModel (.pack u) = ofRank false k := by
  obtain ⟨v, hv⟩ : ∃ v, v = Float.ofModel (.pack u) := ⟨_, rfl⟩
  have hbits : v.toBits.toNat = k := hv ▸ hu
  have hsign : isNegative v = false := by
    refine decide_eq_false ?_
    rw [hbits]
    unfold signBit
    unfold infinity at hk
    omega
  have hrank : rank v = k := by
    rw [rank, hbits]
    unfold signBit
    unfold infinity at hk
    omega
  rw [← hv, ← ofRank_rank v, hsign, hrank]

theorem nearest_le_infinity (n d : Nat) : nearest n d ≤ infinity := Nat.min_le_left _ _

/-- A mantissa of any length is rounded to the nearest magnitude. -/
theorem toNat_pack_round {m : Nat} (hm : m ≠ 0) (s : Nat) :
    (pack .binary64 (round .binary64 .positive m (s - 1074))).toNat = nearest (m * 2 ^ s) 1 := by
  have hbits : (Format.mantissaBits .binary64 : Int) = 53 := rfl
  have hmin : Format.minExponent .binary64 = -1074 := rfl
  obtain ⟨t, ht⟩ : ∃ t, t = ((s : Int) - 1074 -
    Format.targetExponent .binary64 (totalExponent m (s - 1074))).toNat := ⟨_, rfl⟩
  -- the mantissa is filled up from below as far as there are places
  have hfull : t ≤ s ∧ (52 ≤ m.log2 + t ∨ t = s) := by
    rw [Format.targetExponent, totalExponent, hbits, hmin] at ht
    omega
  have hlog : 52 ≤ m.log2 + t → binade ≤ m * 2 ^ t := fun h => calc
    binade = 2 ^ 52 := by decide
    _ ≤ 2 ^ (m.log2 + t) := Nat.pow_le_pow_right (by decide) h
    _ ≤ m * 2 ^ t := two_pow_log2_add_le hm t
  have hexponent : (s : Int) - 1074 - t = (s - t : Nat) - (0 : Nat) - 1074 := by omega
  have hexact : Accuracy.exact = accuracyOfFraction (m * 2 ^ t % 1) 1 := by rw [Nat.mod_one]; rfl
  have h := toNat_pack_roundWithAccuracy (m * 2 ^ t) Nat.one_pos hexponent
    (by rw [Nat.div_one]; omega)
  rw [Float.Model.UnpackedFloat.round, decreaseExponent, ← ht]
  dsimp only
  rw [Nat.shiftLeft_eq, hexact]
  rw [Nat.div_one] at h
  rw [h, Nat.pow_zero, Nat.mul_one, Nat.mul_assoc, ← Nat.pow_add, Nat.add_sub_cancel' hfull.1]

theorem unpack_zero : (ofRank false 0).toModel.unpack = .zero .positive := by rfl

theorem units_zero : units 0 = 0 := by
  unfold units mantissa
  rw [if_pos (by decide), Nat.zero_mul]

theorem pack_unpack_ofRank {k : Nat} (hk : k ≤ infinity) :
    (pack .binary64 (ofRank false k).toModel.unpack).toNat = k := by
  have h : pack .binary64 (ofRank false k).toModel.unpack = (ofRank false k).toBits.toBitVec :=
    pack_unpack (ofRank false k).toModel.valid
  rw [h]
  exact toNat_toBits_ofRank false hk

section

variable {i j : Nat}

theorem scale_eq_zero_or (k : Nat) : scale k = 0 ∨ binade ≤ mantissa k := by
  unfold scale mantissa
  split
  · next h => exact .inl (by rw [Nat.div_eq_of_lt h])
  · exact .inr (Nat.le_add_right _ _)

theorem toNat_pack_add (hi : 0 < mantissa i) (hj : 0 < mantissa j) :
    (pack .binary64 (add .binary64 (.finite .positive (mantissa i) (scale i - 1074) hi)
      (.finite .positive (mantissa j) (scale j - 1074) hj))).toNat =
      nearest (units i + units j) 1 := by
  obtain ⟨s, hs⟩ : ∃ s, s = min (scale i) (scale j) := ⟨_, rfl⟩
  obtain ⟨m, hm⟩ : ∃ m, m = mantissa i * 2 ^ (scale i - s) + mantissa j * 2 ^ (scale j - s) :=
    ⟨_, rfl⟩
  have hpos : m ≠ 0 := by
    have := Nat.mul_pos hi (Nat.two_pow_pos (scale i - s))
    omega
  have hunits : m * 2 ^ s = units i + units j := by
    rw [hm, Nat.add_mul, Nat.mul_assoc, Nat.mul_assoc, ← Nat.pow_add, ← Nat.pow_add,
      Nat.sub_add_cancel (by omega), Nat.sub_add_cancel (by omega)]
    rfl
  have hmin : min ((scale i : Int) - 1074) (scale j - 1074) = s - 1074 := by omega
  have hi' : ((scale i : Int) - 1074 - (s - 1074)).toNat = scale i - s := by omega
  have hj' : ((scale j : Int) - 1074 - (s - 1074)).toNat = scale j - s := by omega
  rw [add, hmin, decreaseExponent, decreaseExponent, hi', hj', Nat.shiftLeft_eq, Nat.shiftLeft_eq]
  change (pack .binary64 (normalize .binary64 ((_ : Nat) + (_ : Nat) : Int) _ _)).toNat = _
  rw [← Nat.cast_add, ← hm, Float.Model.UnpackedFloat.normalize, compare_gt_iff_gt.mpr (by omega)]
  dsimp only
  rw [Int.toNat_natCast, toNat_pack_round hpos, hunits]

theorem toNat_pack_mul (hi : 0 < mantissa i) (hj : 0 < mantissa j) :
    (pack .binary64 (mul .binary64 (.finite .positive (mantissa i) (scale i - 1074) hi)
      (.finite .positive (mantissa j) (scale j - 1074) hj))).toNat =
      nearest (units i * units j) unitsOfOne := by
  obtain ⟨u, hu⟩ : ∃ u, u = 1074 := ⟨_, rfl⟩
  obtain ⟨up, hup⟩ : ∃ up, up = scale i + scale j - u := ⟨_, rfl⟩
  obtain ⟨down, hdown⟩ : ∃ down, down = u - (scale i + scale j) := ⟨_, rfl⟩
  have hsign : Sign.positive * Sign.positive = .positive := rfl
  have hexact : Accuracy.exact = accuracyOfFraction (mantissa i * mantissa j % 1) 1 := by
    rw [Nat.mod_one]
    rfl
  have hfull : binade ≤ mantissa i * mantissa j / 1 ∧ down = 0 ∨ up = 0 := by
    have hleft := Nat.le_mul_of_pos_right (mantissa i) hj
    have hright := Nat.le_mul_of_pos_left (mantissa j) hi
    have hi' := scale_eq_zero_or i
    have hj' := scale_eq_zero_or j
    rw [Nat.div_one]
    omega
  have h := toNat_pack_roundWithAccuracy (mantissa i * mantissa j) Nat.one_pos
    (e := (scale i : Int) - 1074 + (scale j - 1074)) (by omega) hfull
  rw [Nat.div_one] at h
  rw [mul, hsign, hexact, h]
  refine nearest_congr (Nat.mul_pos Nat.one_pos (Nat.two_pow_pos _)) unitsOfOne_pos ?_
  rw [unitsOfOne_eq_pow hu, units, units, Nat.pow_eq, Nat.pow_eq]
  have hpow : 2 ^ up * 2 ^ u = 2 ^ scale i * 2 ^ scale j * 2 ^ down := by
    rw [← Nat.pow_add, ← Nat.pow_add, ← Nat.pow_add]
    congr 1
    omega
  calc
    mantissa i * mantissa j * 2 ^ up * 2 ^ u = mantissa i * mantissa j * (2 ^ up * 2 ^ u) := by ring
    _ = mantissa i * mantissa j * (2 ^ scale i * 2 ^ scale j * 2 ^ down) := by rw [hpow]
    _ = mantissa i * 2 ^ scale i * (mantissa j * 2 ^ scale j) * (1 * 2 ^ down) := by ring

/-- A quotient has all the bits of a mantissa if its numerator has so many more than its
denominator. -/
theorem binade_le_div {m m' t : Nat} (hm : m ≠ 0) (hm' : 0 < m')
    (h : m'.log2 + 53 ≤ m.log2 + t) : binade ≤ m * 2 ^ t / m' := by
  refine (Nat.le_div_iff_mul_le hm').mpr ?_
  calc
    binade * m' = m' * 2 ^ 52 := Nat.mul_comm ..
    _ ≤ 2 ^ (m'.log2 + 52 + 1) := (mul_two_pow_lt m' 52).le
    _ ≤ 2 ^ (m.log2 + t) := Nat.pow_le_pow_right (by decide) h
    _ ≤ m * 2 ^ t := two_pow_log2_add_le hm t

theorem toNat_pack_div (hi : 0 < mantissa i) (hj : 0 < mantissa j) :
    (pack .binary64 (div .binary64 (.finite .positive (mantissa i) (scale i - 1074) hi)
      (.finite .positive (mantissa j) (scale j - 1074) hj))).toNat =
      nearest (units i * unitsOfOne) (units j) := by
  obtain ⟨u, hu⟩ : ∃ u, u = 1074 := ⟨_, rfl⟩
  obtain ⟨e, he⟩ : ∃ e, e = min ((scale i : Int) - 1074 - (scale j - 1074))
      (Format.targetExponent .binary64 (totalExponent (mantissa i) (scale i - 1074) -
        totalExponent (mantissa j) (scale j - 1074))) := ⟨_, rfl⟩
  obtain ⟨shift, hshift⟩ : ∃ shift, shift = ((scale i : Int) - scale j - e).toNat := ⟨_, rfl⟩
  obtain ⟨up, hup⟩ : ∃ up, up = (e + 1074).toNat := ⟨_, rfl⟩
  obtain ⟨down, hdown⟩ : ∃ down, down = (-(e + 1074)).toNat := ⟨_, rfl⟩
  have hsign : Sign.positive / Sign.positive = .positive := rfl
  have hbits : (Format.mantissaBits .binary64 : Int) = 53 := rfl
  have hmin : Format.minExponent .binary64 = -1074 := rfl
  rw [Format.targetExponent, totalExponent, totalExponent, hbits, hmin] at he
  -- beyond the least magnitudes the quotient has all the bits of a mantissa
  have hfull : binade ≤ mantissa i * 2 ^ shift / mantissa j ∧ down = 0 ∨ up = 0 := by
    by_cases hlow : e ≤ -1074
    · exact .inr (by omega)
    · exact .inl ⟨binade_le_div hi.ne' hj (by omega), by omega⟩
  have h := toNat_pack_roundWithAccuracy (mantissa i * 2 ^ shift) hj
    (show e = up - down - 1074 by omega) hfull
  have hcore : divCore .binary64 (mantissa i) (scale i - 1074) (mantissa j) (scale j - 1074) =
      (mantissa i * 2 ^ shift / mantissa j, e,
        accuracyOfFraction (mantissa i * 2 ^ shift % mantissa j) (mantissa j)) := by
    rw [divCore, Format.targetExponent, totalExponent, totalExponent, hbits, hmin, ← he,
      Nat.shiftLeft_eq]
    have hsame : ((scale i : Int) - 1074 - (scale j - 1074) - e).toNat = shift := by omega
    rw [hsame]
  rw [div, hcore, hsign]
  dsimp only
  rw [h]
  refine nearest_congr (Nat.mul_pos hj (Nat.two_pow_pos _))
    (Nat.mul_pos hj (Nat.two_pow_pos _)) ?_
  rw [unitsOfOne_eq_pow hu, units, units, Nat.pow_eq, Nat.pow_eq]
  have hpow : 2 ^ shift * 2 ^ up * 2 ^ scale j = 2 ^ scale i * 2 ^ u * 2 ^ down := by
    rw [← Nat.pow_add, ← Nat.pow_add, ← Nat.pow_add, ← Nat.pow_add]
    congr 1
    omega
  calc
    mantissa i * 2 ^ shift * 2 ^ up * (mantissa j * 2 ^ scale j) =
        mantissa i * mantissa j * (2 ^ shift * 2 ^ up * 2 ^ scale j) := by ring
    _ = mantissa i * mantissa j * (2 ^ scale i * 2 ^ u * 2 ^ down) := by rw [hpow]
    _ = mantissa i * 2 ^ scale i * 2 ^ u * (mantissa j * 2 ^ down) := by ring

end

/-! ### Doubles -/

/-- The `k`-th magnitude; `2 ^ 1024` for `infinity`. -/
def magnitude (k : Nat) : ℚ := units k / unitsOfOne

/-- A magnitude as a coefficient with a power of two. -/
theorem magnitude_eq (k : Nat) : magnitude k = mantissa k * 2 ^ ((scale k : Int) - 1074) := by
  obtain ⟨u, hu⟩ : ∃ u, u = 1074 := ⟨_, rfl⟩
  have hexponent : ((scale k : Int) - 1074) = scale k - (u : Nat) := by omega
  rw [hexponent, zpow_sub₀ (by norm_num), zpow_natCast, zpow_natCast, magnitude, units,
    unitsOfOne_eq_pow hu, Nat.pow_eq]
  push_cast
  rw [mul_div_assoc]

theorem magnitude_nonneg (k : Nat) : 0 ≤ magnitude k :=
  div_nonneg (Nat.cast_nonneg _) (Nat.cast_nonneg _)

theorem magnitude_zero : magnitude 0 = 0 := by rw [magnitude, units_zero, Nat.cast_zero, zero_div]

/-- The number of the magnitude nearest to `x`. -/
def nearestTo (x : ℚ) : Nat := nearest (x.num.toNat * unitsOfOne) x.den

theorem cast_num_toNat {x : ℚ} (hx : 0 ≤ x) : (x.num.toNat : ℚ) = x * x.den := by
  rw [Rat.mul_den_eq_num, ← Int.cast_natCast, Int.toNat_of_nonneg (Rat.num_nonneg.mpr hx)]

theorem nearestTo_div (n : Nat) {d : Nat} (hd : 0 < d) :
    nearestTo (n / d) = nearest (n * unitsOfOne) d := by
  obtain ⟨x, hx⟩ : ∃ x : ℚ, x = n / d := ⟨_, rfl⟩
  have hnum := cast_num_toNat (x := x) (hx ▸ by positivity)
  have hcross : x.num.toNat * d = n * x.den := by
    have hd' : (d : ℚ) ≠ 0 := by exact_mod_cast hd.ne'
    have h : ((x.num.toNat : Nat) : ℚ) * d = n * x.den := by
      rw [hnum, hx]
      field_simp
    exact_mod_cast h
  rw [← hx, nearestTo]
  refine nearest_congr x.den_pos hd ?_
  rw [Nat.mul_right_comm, hcross, Nat.mul_right_comm]

theorem nearestTo_magnitude {k : Nat} (hk : k < infinity) : nearestTo (magnitude k) = k := by
  rw [magnitude, nearestTo_div _ unitsOfOne_pos]
  conv_lhs => rw [← Nat.one_mul unitsOfOne, ← Nat.mul_assoc, Nat.mul_one]
  rw [nearest_mul _ _ unitsOfOne_pos, nearest_units hk]

theorem nearestTo_zero : nearestTo 0 = 0 := by
  rw [← magnitude_zero, nearestTo_magnitude (by decide)]

theorem nearestTo_le_infinity (x : ℚ) : nearestTo x ≤ infinity := nearest_le_infinity _ _

section

variable {i j : Nat}

/-- **Sums are rounded correctly.** -/
theorem ofRank_add (hi : i < infinity) (hj : j < infinity) :
    ofRank false i + ofRank false j = ofRank false (nearestTo (magnitude i + magnitude j)) := by
  have hsum : magnitude i + magnitude j = ((units i + units j : Nat) : ℚ) / unitsOfOne := by
    rw [magnitude, magnitude, ← add_div, Nat.cast_add]
  have hnearest : nearestTo (magnitude i + magnitude j) = nearest (units i + units j) 1 := by
    rw [hsum, nearestTo_div _ unitsOfOne_pos]
    exact nearest_congr unitsOfOne_pos Nat.one_pos (Nat.mul_one _)
  rw [hnearest]
  refine ofModel_pack (nearest_le_infinity _ _) ?_
  have hi' := pack_unpack_ofRank hi.le
  have hj' := pack_unpack_ofRank hj.le
  by_cases hi0 : i = 0
  · rw [hi0, unpack_zero, units_zero, Nat.zero_add, nearest_units hj]
    by_cases hj0 : j = 0
    · rw [hj0, unpack_zero]
      rfl
    · rw [unpack_ofRank hj hj0] at hj' ⊢
      exact hj'
  · by_cases hj0 : j = 0
    · rw [hj0, unpack_zero, units_zero, Nat.add_zero, nearest_units hi]
      rw [unpack_ofRank hi hi0] at hi' ⊢
      exact hi'
    · rw [unpack_ofRank hi hi0, unpack_ofRank hj hj0]
      exact toNat_pack_add _ _

/-- **Products are rounded correctly.** -/
theorem ofRank_mul (hi : i < infinity) (hj : j < infinity) :
    ofRank false i * ofRank false j = ofRank false (nearestTo (magnitude i * magnitude j)) := by
  have hproduct : magnitude i * magnitude j =
      ((units i * units j : Nat) : ℚ) / (unitsOfOne * unitsOfOne : Nat) := by
    rw [magnitude, magnitude, div_mul_div_comm, Nat.cast_mul, Nat.cast_mul]
  have hnearest : nearestTo (magnitude i * magnitude j) =
      nearest (units i * units j) unitsOfOne := by
    rw [hproduct, nearestTo_div _ (Nat.mul_pos unitsOfOne_pos unitsOfOne_pos)]
    exact nearest_mul _ _ unitsOfOne_pos
  rw [hnearest]
  refine ofModel_pack (nearest_le_infinity _ _) ?_
  have hzero : nearest 0 unitsOfOne = 0 := nearest_small unitsOfOne_pos
  by_cases hi0 : i = 0
  · rw [hi0, unpack_zero, units_zero, Nat.zero_mul, hzero]
    by_cases hj0 : j = 0
    · rw [hj0, unpack_zero]
      rfl
    · rw [unpack_ofRank hj hj0]
      rfl
  · by_cases hj0 : j = 0
    · rw [hj0, unpack_zero, units_zero, Nat.mul_zero, hzero, unpack_ofRank hi hi0]
      rfl
    · rw [unpack_ofRank hi hi0, unpack_ofRank hj hj0]
      exact toNat_pack_mul _ _

/-- **Quotients are rounded correctly.** -/
theorem ofRank_div (hi : i < infinity) (hj : j < infinity) (hj0 : j ≠ 0) :
    ofRank false i / ofRank false j = ofRank false (nearestTo (magnitude i / magnitude j)) := by
  have hpos : 0 < units j := Nat.mul_pos (mantissa_pos hj0) (Nat.two_pow_pos _)
  have hone : (unitsOfOne : ℚ) ≠ 0 := by exact_mod_cast unitsOfOne_pos.ne'
  have hquotient : magnitude i / magnitude j = ((units i : Nat) : ℚ) / (units j : Nat) := by
    rw [magnitude, magnitude, div_div_div_cancel_right₀ hone]
  rw [hquotient, nearestTo_div _ hpos]
  refine ofModel_pack (nearest_le_infinity _ _) ?_
  rw [unpack_ofRank hj hj0]
  by_cases hi0 : i = 0
  · rw [hi0, unpack_zero, units_zero, Nat.zero_mul, nearest_small hpos]
    rfl
  · rw [unpack_ofRank hi hi0]
    exact toNat_pack_div _ _

theorem unpack_nought : (0 : Float).toModel.unpack = .zero .positive := by rfl

theorem ofRank_beq_zero (hi : i < infinity) : (ofRank false i == 0) = decide (i = 0) := by
  change Float.Model.UnpackedFloat.beq (ofRank false i).toModel.unpack
    (0 : Float).toModel.unpack = _
  rw [unpack_nought]
  by_cases h0 : i = 0
  · rw [h0, unpack_zero]
    rfl
  · rw [unpack_ofRank hi h0, decide_eq_false h0]
    rfl

/-- Whole numbers are rounded correctly. -/
theorem ofNat_eq (n : Nat) : ofNat n = ofRank false (nearestTo n) := by
  have h : nearestTo n = ofDecimal n 0 := by
    rw [← div_one (n : ℚ), ← Nat.cast_one, nearestTo_div n Nat.one_pos, ofDecimal_eq_nearest]
    simp only [Int.toNat_zero, Int.neg_zero, Nat.pow_zero, Nat.mul_one]
  rw [ofNat, h]

theorem roundHalfAway_ofRank (hi : i < infinity) :
    roundHalfAway (ofRank false i) = ofRank false (nearestTo (⌊magnitude i + 1 / 2⌋₊ : Nat)) := by
  have hrank := rank_ofRank false hi.le
  have hview : view (ofRank false i) = .finite false i := by
    rw [view, hrank, isNegative_ofRank false hi.le, if_neg (by omega), if_neg (by omega)]
  have hfloor : ⌊magnitude i + 1 / 2⌋₊ = (2 * units i + unitsOfOne) / (2 * unitsOfOne) := by
    have hone : (unitsOfOne : ℚ) ≠ 0 := by exact_mod_cast unitsOfOne_pos.ne'
    rw [← Nat.floor_div_eq_div (K := ℚ)]
    congr 1
    rw [magnitude]
    push_cast
    field_simp
  rw [roundHalfAway, hview, ← ofNat_eq, hfloor]
  rfl

end

end InfixArith.Binary64
