import InfixArith.Proofs.Binary64.Arithmetic

/-!
# Binary64 — how far rounding goes

Rounding a number of moderate size changes it by one part in `2 ^ 53` at most.  Two numbers are so
many roundings apart when neither is below the other less that part so many times (`Apart`); sums,
products and quotients of such numbers are such numbers again, so the error of a computation is
found by counting its roundings.

* `nearestTo_error`: the error of one rounding.
* `Approximates.add`, `Approximates.mul`, `Approximates.div`: an operation on doubles adds one
  rounding to those of its operands.
* `nearestTo_natCast`: a whole number below `2 ^ 53` is a magnitude.
-/

namespace InfixArith.Binary64

/-! ### One rounding -/

/-- Of two magnitudes next to each other a fraction is no further from the nearer one than half the
way. -/
theorem Nearer.dist_le {n d b k : Nat} (hk : Nearer n d b k) (hlow : units b * d ≤ n)
    (hhigh : n < units (b + 1) * d) :
    2 * Nat.dist (units k * d) n ≤ (units (b + 1) - units b) * d := by
  rw [Nat.sub_mul]
  unfold Nat.dist
  cases hk with
  | below h | above h => rw [Nat.add_mul] at h; omega

/-- From the first full mantissa on, magnitudes are no further apart than one part in `2 ^ 52`. -/
theorem units_succ_sub_le {b : Nat} (hb : binade ≤ b) :
    (units (b + 1) - units b) * binade ≤ units b := by
  obtain ⟨s, m, rfl, hs, hm⟩ := exists_place b
  have hfull : binade ≤ m := by
    rcases hs with rfl | hs
    · omega
    · exact hs
  rw [Nat.add_assoc, units_binade hs hm.le, units_binade (.inr (by omega)) hm, ← Nat.sub_mul,
    Nat.succ_sub (Nat.le_refl m), Nat.sub_self, Nat.one_mul, Nat.mul_comm]
  exact Nat.mul_le_mul_right _ hfull

theorem magnitude_mono : StrictMono magnitude := fun _ _ h =>
  div_lt_div_of_pos_right (by exact_mod_cast units_strictMono h) (by exact_mod_cast unitsOfOne_pos)

theorem cast_dist (a b : Nat) : |(a : ℚ) - b| = Nat.dist a b := by
  rcases Nat.le_total a b with h | h
  · rw [Nat.dist_eq_sub_of_le h, Nat.cast_sub h, abs_sub_comm,
      abs_of_nonneg (sub_nonneg.mpr (by exact_mod_cast h))]
  · rw [Nat.dist_eq_sub_of_le_right h, Nat.cast_sub h,
      abs_of_nonneg (sub_nonneg.mpr (by exact_mod_cast h))]

/-- Rounding keeps the order. -/
theorem nearestTo_mono {x y : ℚ} (hx : 0 ≤ x) (h : x ≤ y) : nearestTo x ≤ nearestTo y := by
  refine nearest_mono x.den_pos y.den_pos ?_
  have hnum : (x.num.toNat : Int) * y.den ≤ y.num.toNat * x.den := by
    rw [Int.toNat_of_nonneg (Rat.num_nonneg.mpr hx),
      Int.toNat_of_nonneg (Rat.num_nonneg.mpr (hx.trans h))]
    exact (Rat.le_iff x y).mp h
  rw [Nat.mul_right_comm, Nat.mul_right_comm y.num.toNat]
  exact Nat.mul_le_mul_right _ (by exact_mod_cast hnum)

section

variable {x : ℚ} (hx : 0 ≤ x) (k : Nat)

include hx

/-- How far a number is from a magnitude, counted in units over its denominator. -/
theorem abs_magnitude_sub :
    |magnitude k - x| * (unitsOfOne * x.den) =
      Nat.dist (units k * x.den) (x.num.toNat * unitsOfOne) := by
  have hone : (0 : ℚ) < unitsOfOne := by exact_mod_cast unitsOfOne_pos
  have hden : (0 : ℚ) < x.den := by exact_mod_cast x.den_pos
  rw [← cast_dist, Nat.cast_mul, Nat.cast_mul, cast_num_toNat hx,
    ← abs_of_pos (mul_pos hone hden), ← abs_mul, sub_mul, magnitude, ← mul_assoc,
    div_mul_cancel₀ _ hone.ne', mul_assoc x, mul_comm (x.den : ℚ)]

theorem units_mul_den_le_iff :
    units k * x.den ≤ x.num.toNat * unitsOfOne ↔ magnitude k ≤ x := by
  have hone : (0 : ℚ) < unitsOfOne := by exact_mod_cast unitsOfOne_pos
  have hden : (0 : ℚ) < x.den := by exact_mod_cast x.den_pos
  rw [magnitude, div_le_iff₀ hone, ← mul_le_mul_iff_of_pos_right hden, mul_right_comm,
    ← cast_num_toNat hx, ← Nat.cast_mul, ← Nat.cast_mul, Nat.cast_le]

theorem num_mul_unitsOfOne_lt_iff :
    x.num.toNat * unitsOfOne < units k * x.den ↔ x < magnitude k := by
  rw [← not_le, ← not_le, units_mul_den_le_iff hx]

end

/-- From the first full mantissa on, the nearer of two magnitudes next to each other is no further
than one part in `2 ^ 53` away. -/
theorem Nearer.dist_mul_le {n d b k : Nat} (hb : binade ≤ b) (hk : Nearer n d b k)
    (hlow : units b * d ≤ n) (hhigh : n < units (b + 1) * d) :
    Nat.dist (units k * d) n * 2 ^ 53 ≤ n := by
  have hpow : 2 ^ 53 = 2 * binade := by decide
  calc
    Nat.dist (units k * d) n * 2 ^ 53 = 2 * Nat.dist (units k * d) n * binade := by
      rw [hpow, ← Nat.mul_assoc, Nat.mul_comm _ 2]
    _ ≤ (units (b + 1) - units b) * d * binade := Nat.mul_le_mul_right _ (hk.dist_le hlow hhigh)
    _ = (units (b + 1) - units b) * binade * d := Nat.mul_right_comm ..
    _ ≤ units b * d := Nat.mul_le_mul_right _ (units_succ_sub_le hb)
    _ ≤ n := hlow

/-- **The error of one rounding.** -/
theorem nearestTo_error {x : ℚ} (hlow : magnitude binade ≤ x) (hhigh : x < magnitude infinity) :
    |magnitude (nearestTo x) - x| ≤ x / 2 ^ 53 := by
  have hx : 0 ≤ x := (magnitude_nonneg _).trans hlow
  obtain ⟨b, k, hb, hb', hk, hnearest⟩ := exists_between (x.num.toNat * unitsOfOne) x.den_pos
  have hfull : binade ≤ b := by
    have h := hlow.trans_lt ((num_mul_unitsOfOne_lt_iff hx _).mp hb')
    exact Nat.le_of_lt_succ (magnitude_mono.lt_iff_lt.mp h)
  have hlt : b < infinity :=
    magnitude_mono.lt_iff_lt.mp (((units_mul_den_le_iff hx _).mp hb).trans_lt hhigh)
  have hfin : k ≤ infinity := by
    cases hk with
    | below _ => exact hlt.le
    | above _ => exact hlt
  have hround : nearestTo x = k := by rw [nearestTo, hnearest, Nat.min_eq_right hfin]
  have hone : (0 : ℚ) < unitsOfOne := by exact_mod_cast unitsOfOne_pos
  have hden : (0 : ℚ) < x.den := by exact_mod_cast x.den_pos
  rw [hround, le_div_iff₀ (by norm_num)]
  refine le_of_mul_le_mul_right ?_ (mul_pos hone hden)
  calc
    |magnitude k - x| * 2 ^ 53 * (unitsOfOne * x.den) =
        (Nat.dist (units k * x.den) (x.num.toNat * unitsOfOne) * 2 ^ 53 : Nat) := by
      rw [mul_right_comm, abs_magnitude_sub hx, Nat.cast_mul, Nat.cast_pow, Nat.cast_ofNat]
    _ ≤ (x.num.toNat * unitsOfOne : Nat) := Nat.cast_le.mpr (hk.dist_mul_le hfull hb hb')
    _ = x * (unitsOfOne * x.den) := by
      rw [Nat.cast_mul, cast_num_toNat hx, mul_assoc, mul_comm (x.den : ℚ)]

/-- A magnitude beyond the finite ones is not needed for what is not above the greatest of them. -/
theorem nearestTo_lt_infinity {x : ℚ} (hx : 0 ≤ x) (h : x ≤ magnitude (infinity - 1)) :
    nearestTo x < infinity := by
  have hlast : infinity - 1 < infinity := by decide
  refine Nat.lt_of_le_of_lt ?_ hlast
  rw [← nearestTo_magnitude hlast]
  exact nearestTo_mono hx h

/-! ### Several roundings -/

/-- What one rounding leaves of a number at least. -/
def kept : ℚ := 1 - 1 / 2 ^ 53

/-- `x` and `y` are no more than `k` roundings apart. -/
structure Apart (k : Nat) (x y : ℚ) : Prop where
  le : kept ^ k * y ≤ x
  ge : kept ^ k * x ≤ y

theorem kept_pos : 0 < kept := by norm_num [kept]

theorem kept_le_one : kept ≤ 1 := by norm_num [kept]

namespace Apart

variable {k l : Nat} {x y z w : ℚ}

theorem refl (x : ℚ) : Apart 0 x x :=
  ⟨by rw [pow_zero, one_mul], by rw [pow_zero, one_mul]⟩

theorem symm (h : Apart k x y) : Apart k y x := ⟨h.ge, h.le⟩

theorem trans (h : Apart k x y) (h' : Apart l y z) : Apart (k + l) x z := by
  have hk : 0 < kept ^ k := pow_pos kept_pos k
  have hl : 0 < kept ^ l := pow_pos kept_pos l
  constructor
  · calc
      kept ^ (k + l) * z = kept ^ k * (kept ^ l * z) := by rw [pow_add, mul_assoc]
      _ ≤ kept ^ k * y := mul_le_mul_of_nonneg_left h'.le hk.le
      _ ≤ x := h.le
  · calc
      kept ^ (k + l) * x = kept ^ l * (kept ^ k * x) := by
        rw [pow_add, mul_comm (kept ^ k), mul_assoc]
      _ ≤ kept ^ l * y := mul_le_mul_of_nonneg_left h.ge hl.le
      _ ≤ z := h'.ge

theorem mono (hkl : k ≤ l) (hx : 0 ≤ x) (hy : 0 ≤ y) (h : Apart k x y) : Apart l x y := by
  have hpow : kept ^ l ≤ kept ^ k := pow_le_pow_of_le_one kept_pos.le kept_le_one hkl
  exact ⟨(mul_le_mul_of_nonneg_right hpow hy).trans h.le,
    (mul_le_mul_of_nonneg_right hpow hx).trans h.ge⟩

theorem add (h : Apart k x y) (h' : Apart k z w) : Apart k (x + z) (y + w) :=
  ⟨by rw [mul_add]; exact add_le_add h.le h'.le, by rw [mul_add]; exact add_le_add h.ge h'.ge⟩

theorem mul (hx : 0 ≤ x) (hy : 0 ≤ y) (hz : 0 ≤ z) (hw : 0 ≤ w) (h : Apart k x y)
    (h' : Apart l z w) : Apart (k + l) (x * z) (y * w) := by
  have hk : 0 ≤ kept ^ k := (pow_pos kept_pos k).le
  have hl : 0 ≤ kept ^ l := (pow_pos kept_pos l).le
  constructor
  · rw [pow_add, mul_mul_mul_comm]
    exact mul_le_mul h.le h'.le (mul_nonneg hl hw) hx
  · rw [pow_add, mul_mul_mul_comm]
    exact mul_le_mul h.ge h'.ge (mul_nonneg hl hz) hy

theorem inv (hx : 0 < x) (hy : 0 < y) (h : Apart k x y) : Apart k x⁻¹ y⁻¹ := by
  constructor
  · rw [← div_eq_mul_inv, div_le_iff₀ hy, ← div_eq_inv_mul, le_div_iff₀ hx]
    exact h.ge
  · rw [← div_eq_mul_inv, div_le_iff₀ hx, ← div_eq_inv_mul, le_div_iff₀ hy]
    exact h.le

theorem div (hx : 0 ≤ x) (hy : 0 ≤ y) (hz : 0 < z) (hw : 0 < w) (h : Apart k x y)
    (h' : Apart l z w) : Apart (k + l) (x / z) (y / w) := by
  rw [div_eq_mul_inv, div_eq_mul_inv]
  exact h.mul hx hy (inv_pos.mpr hz).le (inv_pos.mpr hw).le (h'.inv hz hw)

/-- The relative error of so many roundings. -/
theorem abs_sub_le {c : ℚ} (hc : 1 ≤ kept ^ k * (1 + c)) (hc0 : 0 ≤ c) (hy : 0 ≤ y)
    (h : Apart k x y) : |x - y| ≤ c * y := by
  have hk : 0 < kept ^ k := pow_pos kept_pos k
  rw [abs_le]
  constructor
  · have hle : 1 - c ≤ kept ^ k := by nlinarith
    nlinarith [h.le, mul_le_mul_of_nonneg_right hle hy]
  · have hle : kept ^ k * x ≤ kept ^ k * ((1 + c) * y) := by
      nlinarith [h.ge, mul_le_mul_of_nonneg_right hc hy]
    have := le_of_mul_le_mul_left hle hk
    linarith

theorem of_abs_sub_le {c : ℚ} (hlow : kept ^ k ≤ 1 - c) (hhigh : kept ^ k * (1 + c) ≤ 1)
    (hy : 0 ≤ y) (h : |x - y| ≤ c * y) : Apart k x y := by
  have hk : 0 < kept ^ k := pow_pos kept_pos k
  obtain ⟨hle, hge⟩ := abs_le.mp h
  constructor
  · calc
      kept ^ k * y ≤ (1 - c) * y := mul_le_mul_of_nonneg_right hlow hy
      _ ≤ x := by linarith
  · calc
      kept ^ k * x ≤ kept ^ k * ((1 + c) * y) := mul_le_mul_of_nonneg_left (by linarith) hk.le
      _ = kept ^ k * (1 + c) * y := (mul_assoc ..).symm
      _ ≤ 1 * y := mul_le_mul_of_nonneg_right hhigh hy
      _ = y := one_mul y

end Apart

/-- Far from the least doubles and from the greatest. -/
structure Moderate (x : ℚ) : Prop where
  low : 1 / 10 ^ 50 ≤ x
  high : x ≤ 10 ^ 50

namespace Moderate

variable {k : Nat} {x y : ℚ}

theorem pos (h : Moderate x) : 0 < x := lt_of_lt_of_le (by norm_num) h.low

/-- Roundings take a number no further than to twice or half of it. -/
theorem apart_bounds (hk : k ≤ 64) (hy : Moderate y) (h : Apart k x y) :
    1 / 10 ^ 60 ≤ x ∧ x ≤ 10 ^ 60 := by
  have hpos := hy.pos
  have herror : |x - y| ≤ 1 / 2 * y := by
    refine (h.mono hk ?_ hpos.le).abs_sub_le (by norm_num [kept]) (by norm_num) hpos.le
    exact (mul_nonneg (pow_pos kept_pos k).le hpos.le).trans h.le
  obtain ⟨hlow, hhigh⟩ := abs_le.mp herror
  have hleast := hy.low
  have hmost := hy.high
  norm_num at hleast hmost ⊢
  constructor <;> linarith

/-- One more rounding, of a number that was rounded before. -/
theorem rounded (hk : k ≤ 64) (hy : Moderate y) (h : Apart k x y) :
    nearestTo x < infinity ∧ Apart (1 + k) (magnitude (nearestTo x)) y := by
  obtain ⟨hlow, hhigh⟩ := apart_bounds hk hy h
  have hpos : 0 < x := lt_of_lt_of_le (by norm_num) hlow
  have hone : (0 : ℚ) < unitsOfOne := by exact_mod_cast unitsOfOne_pos
  have hleast : magnitude binade ≤ 1 / 10 ^ 60 := by
    have hunits : units binade * 10 ^ 60 ≤ unitsOfOne := by decide +kernel
    rw [magnitude, div_le_div_iff₀ hone (by norm_num), one_mul]
    exact_mod_cast hunits
  have hmost : 10 ^ 60 ≤ magnitude (infinity - 1) := by
    have hunits : 10 ^ 60 * unitsOfOne ≤ units (infinity - 1) := by decide +kernel
    rw [magnitude, le_div_iff₀ hone]
    exact_mod_cast hunits
  have hfin : x < magnitude infinity :=
    lt_of_le_of_lt (hhigh.trans hmost) (magnitude_mono (by decide))
  refine ⟨nearestTo_lt_infinity hpos.le (hhigh.trans hmost), Apart.trans ?_ h⟩
  refine Apart.of_abs_sub_le (c := 1 / 2 ^ 53) ?_ (by norm_num [kept]) hpos.le ?_
  · rw [pow_one, kept]
  · rw [div_mul_eq_mul_div, one_mul]
    exact nearestTo_error (hleast.trans hlow) hfin

end Moderate

/-! ### Arithmetic -/

/-- `v` is a double at most `a` roundings apart from `x`. -/
def Approximates (v : Float) (a : Nat) (x : ℚ) : Prop :=
  ∃ k < infinity, v = ofRank false k ∧ Apart a (magnitude k) x

namespace Approximates

variable {v w : Float} {a b : Nat} {x y : ℚ}

theorem of_rank {k : Nat} (hk : k < infinity) : Approximates (ofRank false k) 0 (magnitude k) :=
  ⟨k, hk, rfl, .refl _⟩

/-- With no rounding it is the number itself. -/
theorem exists_exact (h : Approximates v 0 x) :
    ∃ k < infinity, v = ofRank false k ∧ magnitude k = x := by
  obtain ⟨k, hk, rfl, hnear⟩ := h
  have hle := hnear.le
  have hge := hnear.ge
  rw [pow_zero, one_mul] at hle hge
  exact ⟨k, hk, rfl, le_antisymm hge hle⟩

theorem of_nearest (hx : Moderate x) : Approximates (ofRank false (nearestTo x)) 1 x := by
  obtain ⟨hfin, hnear⟩ := hx.rounded (Nat.zero_le 64) (.refl x)
  exact ⟨_, hfin, rfl, hnear⟩

theorem mono (hab : a ≤ b) (hx : 0 ≤ x) (h : Approximates v a x) : Approximates v b x := by
  obtain ⟨k, hk, rfl, hnear⟩ := h
  exact ⟨k, hk, rfl, hnear.mono hab (magnitude_nonneg k) hx⟩

theorem add (ha : a ≤ 64) (hm : Moderate (x + y)) (hv : Approximates v a x)
    (hw : Approximates w a y) : Approximates (v + w) (1 + a) (x + y) := by
  obtain ⟨i, hi, rfl, hx⟩ := hv
  obtain ⟨j, hj, rfl, hy⟩ := hw
  obtain ⟨hfin, hnear⟩ := hm.rounded ha (hx.add hy)
  exact ⟨_, hfin, ofRank_add hi hj, hnear⟩

theorem mul (hx0 : 0 ≤ x) (hy0 : 0 ≤ y) (hab : a + b ≤ 64) (hm : Moderate (x * y))
    (hv : Approximates v a x) (hw : Approximates w b y) :
    Approximates (v * w) (1 + (a + b)) (x * y) := by
  obtain ⟨i, hi, rfl, hx⟩ := hv
  obtain ⟨j, hj, rfl, hy⟩ := hw
  obtain ⟨hfin, hnear⟩ := hm.rounded hab
    (hx.mul (magnitude_nonneg i) hx0 (magnitude_nonneg j) hy0 hy)
  exact ⟨_, hfin, ofRank_mul hi hj, hnear⟩

/-- What is near a positive number is positive. -/
theorem magnitude_pos {k : Nat} (hx0 : 0 < x) (h : Apart a (magnitude k) x) :
    0 < magnitude k ∧ k ≠ 0 := by
  have hpos : 0 < magnitude k := lt_of_lt_of_le (mul_pos (pow_pos kept_pos a) hx0) h.le
  refine ⟨hpos, ?_⟩
  rintro rfl
  rw [magnitude_zero] at hpos
  exact lt_irrefl 0 hpos

theorem div (hx0 : 0 ≤ x) (hy0 : 0 < y) (hab : a + b ≤ 64) (hm : Moderate (x / y))
    (hv : Approximates v a x) (hw : Approximates w b y) :
    Approximates (v / w) (1 + (a + b)) (x / y) := by
  obtain ⟨i, hi, rfl, hx⟩ := hv
  obtain ⟨j, hj, rfl, hy⟩ := hw
  obtain ⟨hj0, hne⟩ := magnitude_pos hy0 hy
  obtain ⟨hfin, hnear⟩ := hm.rounded hab (hx.div (magnitude_nonneg i) hx0 hj0 hy0 hy)
  exact ⟨_, hfin, ofRank_div hi hj hne, hnear⟩

/-- A quotient of two doubles is rounded once. -/
theorem div_exact (hy0 : 0 < y) (hv : Approximates v 0 x) (hw : Approximates w 0 y) :
    v / w = ofRank false (nearestTo (x / y)) := by
  obtain ⟨i, hi, rfl, rfl⟩ := hv.exists_exact
  obtain ⟨j, hj, rfl, rfl⟩ := hw.exists_exact
  exact ofRank_div hi hj (magnitude_pos hy0 (.refl _)).2

theorem beq_zero (hx0 : 0 < x) (h : Approximates v a x) : (v == 0) = false := by
  obtain ⟨k, hk, rfl, hnear⟩ := h
  rw [ofRank_beq_zero hk, decide_eq_false (magnitude_pos hx0 hnear).2]

end Approximates

/-! ### Numbers that are magnitudes -/

/-- Whole numbers with no more digits than a mantissa has are magnitudes. -/
theorem exists_magnitude_eq {m : Nat} (hm : m < 2 * binade) :
    ∃ k < infinity, magnitude k = m := by
  rcases Nat.eq_zero_or_pos m with rfl | hpos
  · exact ⟨0, by decide, by rw [magnitude_zero, Nat.cast_zero]⟩
  · obtain ⟨u, hu⟩ : ∃ u, u = 1074 := ⟨_, rfl⟩
    have hlog : m.log2 ≤ 52 :=
      Nat.le_of_lt_succ ((Nat.log2_lt hpos.ne').mpr (show m < 2 ^ 53 from hm))
    have hlow := two_pow_log2_add_le hpos.ne' (52 - m.log2)
    have hhigh := mul_two_pow_lt m (52 - m.log2)
    rw [Nat.add_sub_cancel' hlog] at hlow hhigh
    change binade ≤ m * 2 ^ (52 - m.log2) at hlow
    change m * 2 ^ (52 - m.log2) < 2 * binade at hhigh
    refine ⟨(u - (52 - m.log2)) * binade + m * 2 ^ (52 - m.log2), ?_, ?_⟩
    · have hmul := Nat.mul_le_mul_right binade (show u - (52 - m.log2) ≤ 1074 by omega)
      unfold infinity
      unfold binade at *
      omega
    · have hunits := units_binade (s := u - (52 - m.log2)) (.inr hlow) hhigh.le
      rw [Nat.mul_assoc, ← Nat.pow_add, Nat.add_sub_cancel' (by omega),
        ← unitsOfOne_eq_pow hu] at hunits
      rw [magnitude, hunits, Nat.cast_mul, mul_div_cancel_right₀ _
        (by exact_mod_cast unitsOfOne_pos.ne')]

theorem nearestTo_natCast {m : Nat} (hm : m < 2 * binade) :
    nearestTo m < infinity ∧ magnitude (nearestTo m) = m := by
  obtain ⟨k, hk, hmagnitude⟩ := exists_magnitude_eq hm
  rw [← hmagnitude, nearestTo_magnitude hk]
  exact ⟨hk, rfl⟩

theorem approximates_ofNat {m : Nat} (hm : m < 2 * binade) : Approximates (ofNat m) 0 m := by
  obtain ⟨hfin, hexact⟩ := nearestTo_natCast hm
  have h := Approximates.of_rank hfin
  rwa [hexact, ← ofNat_eq] at h

end InfixArith.Binary64
