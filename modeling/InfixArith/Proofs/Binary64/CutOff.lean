import InfixArith.Proofs.Binary64.Bits
import InfixArith.Proofs.Binary64.Closest

/-!
# Binary64 — rounding by two bits

The result of an operation is a mantissa with an exponent, and with two bits for what was cut off at
its end: whether that is half a unit at least, and whether anything else is left.  Cutting off more
keeps the bits right (`shiftRight_cutOff`), and they are all that rounding to the even number needs
(`roundedMantissa_cutOff`).  So what is packed is the magnitude `nearest` to the exact result
(`toNat_pack_roundWithAccuracy`).
-/

namespace InfixArith.Binary64

open Float.Model (Format totalExponent)
open Float.Model.UnpackedFloat

/-! ### What is cut off -/

/-- The fraction `n / d` cut off at the point. -/
def cutOff (n d : Nat) : ExtendedMantissa :=
  ⟨n / d, decide (d ≤ 2 * (n % d)), decide (2 * (n % d) % d ≠ 0)⟩

variable {n d : Nat}

/-- Less than half a unit is cut off. -/
theorem cutOff_of_lt (h : 2 * (n % d) < d) : cutOff n d = ⟨n / d, false, decide (n % d ≠ 0)⟩ := by
  have hrest : 2 * (n % d) ≠ 0 ↔ n % d ≠ 0 := by omega
  rw [cutOff, decide_eq_false (Nat.not_le.mpr h), Nat.mod_eq_of_lt h, decide_eq_decide.mpr hrest]

theorem cutOff_of_eq (h : 2 * (n % d) = d) : cutOff n d = ⟨n / d, true, false⟩ := by
  rw [cutOff, h, Nat.mod_self, decide_eq_true (Nat.le_refl d), decide_eq_false (not_not.mpr rfl)]

theorem cutOff_of_gt (hd : 0 < d) (h : d < 2 * (n % d)) : cutOff n d = ⟨n / d, true, true⟩ := by
  have hr := Nat.mod_lt n hd
  have hmod : 2 * (n % d) % d = 2 * (n % d) - d := by
    rw [Nat.mod_eq_sub_mod h.le, Nat.mod_eq_of_lt (by omega)]
  rw [cutOff, hmod, decide_eq_true h.le, decide_eq_true (by omega)]

theorem ofMantissaAndAccuracy_fraction (n : Nat) (hd : 0 < d) :
    .ofMantissaAndAccuracy (n / d) (accuracyOfFraction (n % d) d) = cutOff n d := by
  unfold accuracyOfFraction
  split
  · next h =>
    rw [cutOff_of_lt (by omega), h]
    rfl
  · next h =>
    rcases Nat.lt_trichotomy (2 * (n % d)) d with hlt | heq | hgt
    · rw [compare_lt_iff_lt.mpr hlt, cutOff_of_lt hlt, decide_eq_true h]
      rfl
    · rw [compare_eq_iff_eq.mpr heq, cutOff_of_eq heq]
      rfl
    · rw [compare_gt_iff_gt.mpr hgt, cutOff_of_gt hd hgt]
      rfl

theorem shiftRightOne_cutOff (n : Nat) (hd : 0 < d) :
    (cutOff n d).shiftRightOne = cutOff n (d * 2) := by
  have hr := Nat.mod_lt n hd
  have hmod : n % (d * 2) = n % d + d * (n / d % 2) := Nat.mod_mul
  have hbit := Nat.mod_two_eq_zero_or_one (n / d)
  simp only [cutOff, ExtendedMantissa.shiftRightOne, ExtendedMantissa.mk.injEq]
  refine ⟨Nat.div_div_eq_div_mul n d 2, ?_, ?_⟩
  · rw [Bool.eq_iff_iff, bne_iff_ne, decide_eq_true_iff, hmod]
    rcases hbit with h | h <;> rw [h] <;> omega
  · -- a bit is left below exactly if `d` does not divide
    have hrest : 2 * (n % (d * 2)) % (d * 2) = 2 * (n % d) := by
      rw [Nat.mul_comm d 2, Nat.mul_mod_mul_left, Nat.mod_mul_left_mod]
    rw [hrest, Bool.eq_iff_iff, Bool.or_eq_true, decide_eq_true_iff, decide_eq_true_iff,
      decide_eq_true_iff]
    constructor
    · rintro (h | h) h0
      · omega
      · rw [h0] at h
        exact h (Nat.zero_mod d)
    · intro h
      by_cases hle : d ≤ 2 * (n % d)
      · exact .inl hle
      · rw [Nat.mod_eq_of_lt (Nat.lt_of_not_le hle)]
        exact .inr h

theorem shiftRight_cutOff (n : Nat) (hd : 0 < d) (k : Nat) :
    cutOff n d >>> k = cutOff n (d * 2 ^ k) := by
  change k.repeat ExtendedMantissa.shiftRightOne (cutOff n d) = _
  induction k with
  | zero => rw [Nat.repeat, Nat.pow_zero, Nat.mul_one]
  | succ k ih =>
      rw [Nat.repeat, ih, shiftRightOne_cutOff n (Nat.mul_pos hd (Nat.two_pow_pos k)),
        Nat.pow_succ, Nat.mul_assoc]

theorem roundedMantissa_cutOff (n : Nat) (hd : 0 < d) :
    (cutOff n d).roundedMantissa = roundHalfEven n d := by
  unfold roundHalfEven
  dsimp only
  rcases Nat.lt_trichotomy (2 * (n % d)) d with hlt | heq | hgt
  · rw [if_pos hlt, cutOff_of_lt hlt]
    cases decide (n % d ≠ 0) <;> rfl
  · rw [if_neg (by omega), if_neg (by omega), cutOff_of_eq heq]
    rfl
  · rw [if_neg (by omega), if_pos hgt, cutOff_of_gt hd hgt]
    rfl

/-! ### Rounding -/

theorem log2_div_two_pow (q k : Nat) : (q / 2 ^ k).log2 = q.log2 - k := by
  rw [Nat.log2_eq_log_two, Nat.log2_eq_log_two, Nat.log_div_base_pow]

theorem roundHalfEven_bounds (n d : Nat) :
    n / d ≤ roundHalfEven n d ∧ roundHalfEven n d ≤ n / d + 1 := by
  rcases roundHalfEven_cases n d with ⟨hround, -⟩ | ⟨hround, -⟩ <;> omega

/-- Rounding fills the mantissa, or takes it to the next power of two. -/
theorem roundHalfEven_place (n d : Nat) :
    let s := (n / d).log2 - 52
    (s = 0 ∨ binade ≤ roundHalfEven n (d * 2 ^ s)) ∧ roundHalfEven n (d * 2 ^ s) ≤ 2 * binade := by
  intro s
  obtain ⟨hlow, hhigh⟩ := place_bounds (n / d)
  rw [Nat.div_div_eq_div_mul] at hlow hhigh
  obtain ⟨hdown, hup⟩ := roundHalfEven_bounds n (d * 2 ^ s)
  exact ⟨hlow.imp_right hdown.trans', hup.trans hhigh⟩

/-- A fraction is cut off where its mantissa is full, which is in the binade that `nearest` finds;
`up` and `down` are the powers of two between it and the least magnitude. -/
theorem shiftToTargetExponent_fraction (hd : 0 < d) {up down : Nat} {e : Int}
    (he : e = up - down - 1074) (hfull : binade ≤ n / d ∧ down = 0 ∨ up = 0) :
    let s := (n * 2 ^ up / (d * 2 ^ down)).log2 - 52
    ∃ k, s + down = k + up ∧
      shiftToTargetExponent .binary64 (n / d) e (accuracyOfFraction (n % d) d) =
        (cutOff n (d * 2 ^ k), (s : Int) - 1074) := by
  intro s
  have hbits : (Format.mantissaBits .binary64 : Int) = 53 := rfl
  have hmin : Format.minExponent .binary64 = -1074 := rfl
  have htarget : Format.targetExponent .binary64 (totalExponent (n / d) e) = s - 1074 ∧
      up ≤ s + down := by
    rw [Format.targetExponent, totalExponent, hbits, hmin]
    rcases hfull with ⟨hlarge, rfl⟩ | rfl
    · have hlog : 52 ≤ (n / d).log2 :=
        (Nat.le_log2 (Nat.lt_of_lt_of_le (by decide) hlarge).ne').mpr hlarge
      have hs : (n * 2 ^ up / d / 2 ^ up).log2 = (n / d).log2 := by
        rw [Nat.div_div_eq_div_mul, Nat.mul_div_mul_right _ _ (Nat.two_pow_pos up)]
      rw [log2_div_two_pow] at hs
      simp only [s, Nat.pow_zero, Nat.mul_one]
      omega
    · have hs : (n / d / 2 ^ down).log2 = (n / d).log2 - down := log2_div_two_pow _ _
      rw [Nat.div_div_eq_div_mul] at hs
      simp only [s, Nat.pow_zero, Nat.mul_one, hs]
      omega
  refine ⟨s + down - up, by omega, ?_⟩
  have hk : ((s : Int) - 1074 - e).toNat = s + down - up := by omega
  rw [shiftToTargetExponent, shiftToExponent, htarget.1, hk, ofMantissaAndAccuracy_fraction n hd,
    shiftRight_cutOff n hd]
  refine Prod.ext rfl ?_
  dsimp only
  omega

/-- A mantissa that was rounded up to the next power of two is cut off once more. -/
theorem shiftToTargetExponent_place {s m : Nat} (hs : s = 0 ∨ binade ≤ m) (hm : m ≤ 2 * binade) :
    ∃ s' m', s' * binade + m' = s * binade + m ∧ (s' = 0 ∨ binade ≤ m') ∧ m' < 2 * binade ∧
      (shiftToTargetExponent .binary64 m (s - 1074) .exact).1.mantissa = m' ∧
      (shiftToTargetExponent .binary64 m (s - 1074) .exact).2 = s' - 1074 := by
  have hbits : (Format.mantissaBits .binary64 : Int) = 53 := rfl
  have hmin : Format.minExponent .binary64 = -1074 := rfl
  have hexact : Accuracy.exact = accuracyOfFraction (m % 1) 1 := by rw [Nat.mod_one]; rfl
  have hcut : ∀ k : Nat, (ExtendedMantissa.ofMantissaAndAccuracy m .exact >>> k).mantissa =
      m / 2 ^ k := by
    intro k
    have h := ofMantissaAndAccuracy_fraction m Nat.one_pos
    rw [← hexact, Nat.div_one] at h
    rw [h, shiftRight_cutOff m Nat.one_pos, Nat.one_mul]
    rfl
  rw [shiftToTargetExponent, shiftToExponent, hcut, Format.targetExponent, totalExponent, hbits,
    hmin]
  rcases Nat.eq_or_lt_of_le hm with rfl | hlt
  · have hlog : (2 * binade).log2 = 53 := by decide
    refine ⟨s + 1, binade, by rw [Nat.succ_mul]; omega, .inr (Nat.le_refl _), by decide, ?_, ?_⟩
    · rw [hlog, show (max ((53 : Nat) + 1 + ((s : Int) - 1074) - 53) (-1074) -
        ((s : Int) - 1074)).toNat = 1 by omega]
      decide
    · rw [hlog]
      omega
  · have hlog : m.log2 ≤ 52 := by
      rcases Nat.eq_zero_or_pos m with rfl | hpos
      · decide
      · exact Nat.le_of_lt_succ ((Nat.log2_lt hpos.ne').mpr hlt)
    have hfull : s = 0 ∨ m.log2 = 52 := hs.imp_right fun h =>
      Nat.le_antisymm hlog ((Nat.le_log2 (Nat.lt_of_lt_of_le (by decide) h).ne').mpr h)
    have hzero : (max ((m.log2 : Int) + 1 + ((s : Int) - 1074) - 53) (-1074) -
        ((s : Int) - 1074)).toNat = 0 := by omega
    rw [hzero]
    exact ⟨s, m, rfl, hs, hlt, by rw [Nat.pow_zero, Nat.div_one], by omega⟩

theorem toNat_packComponents (x : BitVec 11) (m : BitVec 52) :
    (packComponents .binary64 .positive x m).toNat = x.toNat * binade + m.toNat := by
  have hzero : Sign.toBitVec .positive = 0#1 := rfl
  rw [packComponents, hzero, BitVec.toNat_append, BitVec.toNat_append,
    ← Nat.shiftLeft_add_eq_or_of_lt m.isLt, ← Nat.shiftLeft_add_eq_or_of_lt x.isLt,
    Nat.shiftLeft_eq, Nat.shiftLeft_eq]
  rw [BitVec.toNat_ofNat, Nat.zero_mod, Nat.zero_mul, Nat.zero_add]
  rfl

/-- A mantissa is packed as the number of its magnitude, or as an infinity. -/
theorem toNat_pack_finite {s m : Nat} (hm : 0 < m) (hs : s = 0 ∨ binade ≤ m)
    (hlt : m < 2 * binade) :
    (pack .binary64 (.finite .positive m (s - 1074) hm)).toNat = min infinity (s * binade + m) := by
  have hbits : Format.mantissaBits .binary64 = 53 := rfl
  have hbias : ((s : Int) - 1074 + (Format.exponentBias .binary64 : Nat) + (52 : Nat)).toNat =
      s + 1 := by
    have h : Format.exponentBias .binary64 = 1023 := rfl
    omega
  have hmod : (BitVec.ofNat 52 m).toNat = m % binade := BitVec.toNat_ofNat ..
  have hexponent : 2 ^ 11 = 2048 := by decide
  simp only [pack, hbias, hbits, hexponent]
  split
  · next h =>
    have hfull : packedInfinity .binary64 .positive =
        packComponents .binary64 .positive (-1#11) 0 := rfl
    rw [hfull, toNat_packComponents, Nat.min_eq_left]
    · rfl
    · unfold infinity
      unfold binade at *
      omega
  · next h =>
    rw [Nat.min_eq_right (by unfold infinity; unfold binade at *; omega)]
    split
    · next hlog =>
      have hlow : binade ≤ m := (Nat.le_log2 hm.ne').mp (by omega : 52 ≤ m.log2)
      rw [toNat_packComponents, hmod, BitVec.toNat_ofNat,
        Nat.mod_eq_of_lt (show s + 1 < 2 ^ 11 by omega)]
      unfold binade at *
      omega
    · next hlog =>
      have hlow : m < binade := by
        by_contra hge
        have hle := (Nat.le_log2 hm.ne').mpr (Nat.le_of_not_lt hge : 2 ^ 52 ≤ m)
        have hge := (Nat.log2_lt hm.ne').mpr (show m < 2 ^ 53 from hlt)
        omega
      obtain rfl : s = 0 := hs.resolve_right (Nat.not_le.mpr hlow)
      rw [toNat_packComponents, hmod, Nat.mod_eq_of_lt hlow]
      rfl

/-- **What is cut off is rounded correctly.**  A mantissa with what was cut off of it becomes the
magnitude nearest to the fraction that they stand for. -/
theorem toNat_pack_roundWithAccuracy (n : Nat) (hd : 0 < d) {up down : Nat} {e : Int}
    (he : e = up - down - 1074) (hfull : binade ≤ n / d ∧ down = 0 ∨ up = 0) :
    (pack .binary64 (roundWithAccuracy .binary64 .positive (n / d) e
      (accuracyOfFraction (n % d) d))).toNat = nearest (n * 2 ^ up) (d * 2 ^ down) := by
  obtain ⟨k, hk, hfirst⟩ := shiftToTargetExponent_fraction hd he hfull
  obtain ⟨s, hs⟩ : ∃ s, s = (n * 2 ^ up / (d * 2 ^ down)).log2 - 52 := ⟨_, rfl⟩
  rw [← hs] at hk hfirst
  -- the fraction is rounded in units of its last place
  have hround : roundHalfEven (n * 2 ^ up) (d * 2 ^ down * 2 ^ s) =
      roundHalfEven n (d * 2 ^ k) := by
    rw [Nat.mul_assoc, ← Nat.pow_add, Nat.add_comm down, hk, Nat.pow_add, ← Nat.mul_assoc,
      roundHalfEven_mul n _ (Nat.two_pow_pos up)]
  have hnearest : nearest (n * 2 ^ up) (d * 2 ^ down) =
      min infinity (s * binade + roundHalfEven n (d * 2 ^ k)) := by
    rw [← hround, nearest, ← hs]
    rfl
  obtain ⟨hlow, hhigh⟩ := roundHalfEven_place (n * 2 ^ up) (d * 2 ^ down)
  rw [← hs, hround] at hlow hhigh
  obtain ⟨s', m, hplace, hlow', hhigh', hmantissa, hexponent⟩ :=
    shiftToTargetExponent_place hlow hhigh
  rw [hnearest, ← hplace, roundWithAccuracy, hfirst]
  simp only [roundedMantissa_cutOff n (Nat.mul_pos hd (Nat.two_pow_pos k)), hmantissa, hexponent]
  split
  · next h =>
    obtain rfl : s' = 0 := hlow'.resolve_right (by rw [h]; decide)
    rw [h]
    rfl
  · next h => exact toNat_pack_finite _ hlow' hhigh'

end InfixArith.Binary64
