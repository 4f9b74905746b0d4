import InfixArith.Proofs.Binary64.Closest
import InfixArith.Proofs.Decimal.Shortest
import Mathlib

/-!
# Decimal — no decimal with fewer digits reads back

The shortest decimal of a finite magnitude has no more digits than any that reads back as the
magnitude (`length_shortest_le`).  The decimals that read back lie side by side, for rounding keeps
their order (`ofDecimal_mono`).  So if any multiple of `10 ^ x` reads back, one of the two that the
magnitude lies between does (`exists_onGrid?`); multiples of powers beyond the one the search begins
at are too large (`ofDecimal_beyond_start`); and a decimal with fewer digits would leave a power of
ten between it and the one that was found, on a grid that the search has passed by.
-/

namespace InfixArith

namespace Decimal

open Binary64 (units unitsOfOne unitsOfOne_pos infinity ofDecimal ofDecimal_eq_nearest nearest_mono
  nearest_units nearest_infinity units_strictMono)

/-! ### Values -/

/-- The number a decimal stands for. -/
def value (m : Nat) (x : Int) : ℚ := m * 10 ^ x

theorem value_mul (m : Nat) (x : Int) :
    value m x * (10 ^ (-x).toNat : Nat) = (m * 10 ^ x.toNat : Nat) := by
  have hten : (10 : ℚ) ^ x * 10 ^ (-x).toNat = 10 ^ x.toNat := by
    rw [← zpow_natCast, ← zpow_natCast, ← zpow_add₀ (by norm_num)]
    congr 1
    omega
  push_cast
  rw [value, mul_assoc, hten]

theorem value_le_value (x : Int) {m n : Nat} (h : m ≤ n) : value m x ≤ value n x :=
  mul_le_mul_of_nonneg_right (by exact_mod_cast h) (by positivity)

/-- Rounding keeps the order of decimals. -/
theorem ofDecimal_mono {m n : Nat} {x y : Int} (h : value m x ≤ value n y) :
    ofDecimal m x ≤ ofDecimal n y := by
  rw [ofDecimal_eq_nearest, ofDecimal_eq_nearest]
  refine nearest_mono (Nat.pow_pos (by decide)) (Nat.pow_pos (by decide)) ?_
  have hle : value m x * (10 ^ (-x).toNat : Nat) * (10 ^ (-y).toNat : Nat) ≤
      value n y * (10 ^ (-y).toNat : Nat) * (10 ^ (-x).toNat : Nat) := by
    rw [mul_right_comm (value n y), mul_assoc, mul_assoc]
    exact mul_le_mul_of_nonneg_right h (by positivity)
  rw [value_mul, value_mul] at hle
  have hnat : m * 10 ^ x.toNat * 10 ^ (-y).toNat ≤ n * 10 ^ y.toNat * 10 ^ (-x).toNat := by
    exact_mod_cast hle
  rw [Nat.mul_right_comm _ unitsOfOne, Nat.mul_right_comm _ unitsOfOne]
  exact Nat.mul_le_mul_right unitsOfOne hnat

theorem nearest_units_one {k : Nat} (hk : k ≤ infinity) : Binary64.nearest (units k) 1 = k := by
  rcases Nat.lt_or_eq_of_le hk with hk | rfl
  · exact nearest_units hk
  · exact nearest_infinity

/-- A decimal that is not below a magnitude is not rounded below it. -/
theorem le_ofDecimal {k m : Nat} {x : Int} (hk : k ≤ infinity)
    (h : (units k : ℚ) ≤ value m x * unitsOfOne) : k ≤ ofDecimal m x := by
  conv_lhs => rw [← nearest_units_one hk]
  rw [ofDecimal_eq_nearest]
  refine nearest_mono Nat.one_pos (Nat.pow_pos (by decide)) ?_
  have hle := mul_le_mul_of_nonneg_right h (Nat.cast_nonneg (10 ^ (-x).toNat))
  rw [mul_right_comm, value_mul] at hle
  rw [Nat.mul_one]
  exact_mod_cast hle

/-- A decimal that is not above a magnitude is not rounded above it. -/
theorem ofDecimal_le {k m : Nat} {x : Int} (hk : k ≤ infinity)
    (h : value m x * unitsOfOne ≤ (units k : ℚ)) : ofDecimal m x ≤ k := by
  conv_rhs => rw [← nearest_units_one hk]
  rw [ofDecimal_eq_nearest]
  refine nearest_mono (Nat.pow_pos (by decide)) Nat.one_pos ?_
  have hle := mul_le_mul_of_nonneg_right h (Nat.cast_nonneg (10 ^ (-x).toNat))
  rw [mul_right_comm, value_mul] at hle
  rw [Nat.mul_one]
  exact_mod_cast hle

/-! ### Grids -/

theorem onGrid_pos (k : Nat) (x : Int) : 0 < (onGrid k x).2 := by
  have hone := unitsOfOne_pos
  unfold onGrid
  generalize unitsOfOne = u at *
  cases x with
  | ofNat n => exact Nat.mul_pos hone (Nat.pow_pos (by decide))
  | negSucc n => exact hone

theorem onGrid_eq (k : Nat) (x : Int) :
    value (onGrid k x).1 x * unitsOfOne = units k * (onGrid k x).2 := by
  cases x with
  | ofNat n =>
      rw [onGrid, value, Int.ofNat_eq_natCast, zpow_natCast, Nat.pow_eq]
      push_cast
      ring
  | negSucc n =>
      rw [onGrid, value, zpow_negSucc, Nat.pow_eq]
      push_cast
      rw [mul_assoc (units k : ℚ), mul_inv_cancel₀ (by positivity), mul_one]

/-- A magnitude lies between two neighbours on every grid. -/
theorem onGrid_between (k : Nat) (x : Int) :
    value ((onGrid k x).1 / (onGrid k x).2) x * unitsOfOne ≤ units k ∧
      (units k : ℚ) ≤ value ((onGrid k x).1 / (onGrid k x).2 + 1) x * unitsOfOne := by
  have hpos := onGrid_pos k x
  have heq := onGrid_eq k x
  generalize (onGrid k x).1 = n at *
  generalize (onGrid k x).2 = d at *
  have hd : (0 : ℚ) < d := by exact_mod_cast hpos
  have hscale : ∀ g : Nat, value g x * unitsOfOne * d = value (g * d) x * unitsOfOne := by
    intro g
    rw [value, value]
    push_cast
    ring
  have hone : (0 : ℚ) ≤ unitsOfOne := Nat.cast_nonneg _
  constructor
  · refine le_of_mul_le_mul_right ?_ hd
    rw [hscale, ← heq]
    exact mul_le_mul_of_nonneg_right (value_le_value x (Nat.div_mul_le_self n d)) hone
  · refine le_of_mul_le_mul_right ?_ hd
    rw [hscale, ← heq]
    refine mul_le_mul_of_nonneg_right (value_le_value x ?_) hone
    exact Nat.le_of_lt (Nat.lt_mul_of_div_lt (Nat.lt_succ_self _) hpos)

/-- If any multiple of a power of ten reads back, a neighbour of the magnitude does. -/
theorem exists_onGrid? (tie : Tie) {k m : Nat} {x : Int} (hk : k ≤ infinity)
    (hm : ofDecimal m x = k) : ∃ g, onGrid? tie k x = some g := by
  obtain ⟨hlow, hhigh⟩ := onGrid_between k x
  have hor : ofDecimal ((onGrid k x).1 / (onGrid k x).2) x = k ∨
      ofDecimal ((onGrid k x).1 / (onGrid k x).2 + 1) x = k := by
    rcases Nat.lt_or_ge ((onGrid k x).1 / (onGrid k x).2) m with hlt | hge
    · refine .inr (Nat.le_antisymm ?_ (le_ofDecimal hk hhigh))
      exact (ofDecimal_mono (value_le_value x hlt)).trans (Nat.le_of_eq hm)
    · refine .inl (Nat.le_antisymm (ofDecimal_le hk hlow) ?_)
      exact (Nat.le_of_eq hm.symm).trans (ofDecimal_mono (value_le_value x hge))
  unfold onGrid?
  dsimp only
  split
  · exact ⟨_, rfl⟩
  · exact ⟨_, rfl⟩
  · exact ⟨_, rfl⟩
  · next hlow hhigh =>
    rcases hor with h | h
    · exact absurd h (of_decide_eq_false hlow)
    · exact absurd h (of_decide_eq_false hhigh)

/-! ### The beginning of the search -/

theorem two_pow_le_ten_pow {a b : Nat} (h : 28 * a ≤ 93 * b) : 2 ^ a ≤ 10 ^ b := by
  have hroot : (2 ^ a) ^ 93 ≤ (10 ^ b) ^ 93 := calc
    (2 ^ a) ^ 93 = (2 ^ 93) ^ a := Nat.pow_right_comm 2 a 93
    _ ≤ (10 ^ 28) ^ a := Nat.pow_le_pow_left (by norm_num) a
    _ = 10 ^ (28 * a) := (Nat.pow_mul 10 28 a).symm
    _ ≤ 10 ^ (93 * b) := Nat.pow_le_pow_right (by decide) h
    _ = (10 ^ b) ^ 93 := by rw [Nat.mul_comm, Nat.pow_mul]
  exact (Nat.pow_le_pow_iff_left (by decide)).mp hroot

theorem ten_pow_le_two_pow {a b : Nat} (h : 10 * b ≤ 3 * a) : 10 ^ b ≤ 2 ^ a := by
  have hroot : (10 ^ b) ^ 3 ≤ (2 ^ a) ^ 3 := calc
    (10 ^ b) ^ 3 = (10 ^ 3) ^ b := Nat.pow_right_comm 10 b 3
    _ ≤ (2 ^ 10) ^ b := Nat.pow_le_pow_left (by norm_num) b
    _ = 2 ^ (10 * b) := (Nat.pow_mul 2 10 b).symm
    _ ≤ 2 ^ (3 * a) := Nat.pow_le_pow_right (by decide) h
    _ = (2 ^ a) ^ 3 := by rw [Nat.mul_comm, Nat.pow_mul]
  exact (Nat.pow_le_pow_iff_left (by decide)).mp hroot

/-- Four times a power of two is not above the power of ten that is estimated for it. -/
theorem two_zpow_le_ten_zpow {y : Int} (hlow : -1074 ≤ y) (hhigh : y ≤ 1024) :
    (2 : ℚ) ^ (y + 2) ≤ 10 ^ (y * 30103 / 100000 + 3) := by
  obtain ⟨t, ht⟩ : ∃ t, t = y * 30103 / 100000 + 3 := ⟨_, rfl⟩
  rw [← ht]
  rcases Int.lt_or_le (y + 2) 0 with hy | hy
  · rcases Int.lt_or_le t 0 with hneg | hnonneg
    · obtain ⟨a, ha⟩ : ∃ a : Nat, y + 2 = -a := ⟨(-(y + 2)).toNat, by omega⟩
      obtain ⟨b, hb⟩ : ∃ b : Nat, t = -b := ⟨(-t).toNat, by omega⟩
      rw [ha, hb, zpow_neg, zpow_neg, zpow_natCast, zpow_natCast]
      refine inv_anti₀ (by positivity) ?_
      exact_mod_cast ten_pow_le_two_pow (a := a) (b := b) (by omega)
    · exact (zpow_le_one_of_nonpos₀ (by norm_num) (Int.le_of_lt hy)).trans
        (one_le_zpow₀ (by norm_num) hnonneg)
  · obtain ⟨a, ha⟩ : ∃ a : Nat, y + 2 = a := ⟨(y + 2).toNat, by omega⟩
    obtain ⟨b, hb⟩ : ∃ b : Nat, t = b := ⟨t.toNat, by omega⟩
    rw [ha, hb, zpow_natCast, zpow_natCast]
    exact_mod_cast two_pow_le_ten_pow (a := a) (b := b) (by omega)

/-- The magnitude after one that is not zero is at most twice as large. -/
theorem units_succ_le {k : Nat} (hk : 0 < k) : units (k + 1) ≤ 2 * units k := by
  obtain ⟨s, m, rfl, hs, hm⟩ := Binary64.exists_place k
  have hpos : 1 ≤ m := by
    rcases hs with rfl | hs
    · omega
    · exact Nat.le_trans (by decide) hs
  rw [Nat.add_assoc, Binary64.units_binade hs (Nat.le_of_lt hm),
    Binary64.units_binade (hs.imp_right Nat.le_succ_of_le) hm, ← Nat.mul_assoc]
  exact Nat.mul_le_mul_right _ (by omega)

theorem log2_units_lt {k : Nat} (hk : k < infinity) : (units k).log2 < 2098 := by
  have hscale := Binary64.log2_units k
  unfold Binary64.scale Binary64.binade at hscale
  unfold infinity at hk
  omega

/-- The power of ten after the one the search begins with is beyond the magnitude, and the next one
too. -/
theorem units_succ_le_start {k : Nat} (h0 : 0 < k) (hk : k < infinity) :
    (units (k + 1) : ℚ) ≤ 10 ^ (startExponent k + 1) * unitsOfOne := by
  obtain ⟨u, hu⟩ : ∃ u, u = 1074 := ⟨_, rfl⟩
  have hlog := log2_units_lt hk
  have hsucc : units (k + 1) ≤ 2 ^ ((units k).log2 + 2) := by
    refine Nat.le_trans (units_succ_le h0) ?_
    rw [Nat.pow_succ']
    exact Nat.mul_le_mul_left 2 (Nat.le_of_lt Nat.lt_log2_self)
  have hone : (unitsOfOne : ℚ) = 2 ^ (u : Int) := by
    rw [Binary64.unitsOfOne_eq_pow hu, zpow_natCast]
    exact Nat.cast_pow 2 u
  have hexp : ((units k).log2 : Int) - 1074 + 2 + u = ((units k).log2 + 2 : Nat) := by
    omega
  have hstart : startExponent k + 1 = ((units k).log2 - 1074 : Int) * 30103 / 100000 + 3 := by
    unfold startExponent
    omega
  calc
    (units (k + 1) : ℚ) ≤ (2 ^ ((units k).log2 + 2) : Nat) := by exact_mod_cast hsucc
    _ = 2 ^ (((units k).log2 : Int) - 1074 + 2) * unitsOfOne := by
      rw [hone, ← zpow_add₀ (by norm_num), hexp, zpow_natCast]
      exact Nat.cast_pow 2 _
    _ ≤ 10 ^ (startExponent k + 1) * unitsOfOne := by
      rw [hstart]
      exact mul_le_mul_of_nonneg_right (two_zpow_le_ten_zpow (by omega) (by omega))
        (Nat.cast_nonneg _)

/-- Decimals on the grids beyond the first of the search are too large, unless they are zero. -/
theorem ofDecimal_beyond_start {k m : Nat} {x : Int} (h0 : 0 < k) (hk : k < infinity)
    (hx : startExponent k < x) : ofDecimal m x ≠ k := by
  rcases Nat.eq_zero_or_pos m with rfl | hm
  · rw [Binary64.ofDecimal_zero]
    exact Nat.ne_of_lt h0
  · refine Nat.ne_of_gt (le_ofDecimal (k := k + 1) hk ((units_succ_le_start h0 hk).trans ?_))
    refine mul_le_mul_of_nonneg_right ?_ (Nat.cast_nonneg _)
    calc
      (10 : ℚ) ^ (startExponent k + 1) ≤ 10 ^ x := zpow_le_zpow_right₀ (by norm_num) hx
      _ = value 1 x := by rw [value, Nat.cast_one, one_mul]
      _ ≤ value m x := value_le_value x hm

/-! ### The end of the search -/

/-- No decimal on a grid beyond the one that is found reads back. -/
theorem ofDecimal_beyond (tie : Tie) {k : Nat} (hk : k ≤ infinity) {steps : Nat} {x : Int}
    (hsteps : x ≤ steps - 1074) (hx : ∀ m y, x < y → ofDecimal m y ≠ k) :
    ∀ m y, (firstOnGrid tie k steps x).exponent < y → ofDecimal m y ≠ k := by
  induction steps generalizing x with
  | zero =>
      have hexp : (firstOnGrid tie k 0 x).exponent = -1074 := rfl
      exact fun m y hy => hx m y (by omega)
  | succ steps ih =>
      rw [firstOnGrid]
      cases hg : onGrid? tie k x with
      | some g => exact hx
      | none =>
          refine ih (by omega) fun m y hy hm => ?_
          rcases Int.lt_or_eq_of_le (Int.le_of_sub_one_lt hy) with hlt | rfl
          · exact hx m y hlt hm
          · obtain ⟨g, hsome⟩ := exists_onGrid? tie hk hm
            rw [hg] at hsome
            cases hsome

theorem ofDecimal_beyond_shortest (tie : Tie) {k m : Nat} {x : Int} (h0 : 0 < k) (hk : k < infinity)
    (hx : (shortest tie k).exponent < x) : ofDecimal m x ≠ k :=
  ofDecimal_beyond tie (Nat.le_of_lt hk)
    (by have := Int.self_le_toNat (startExponent k + 1074); omega)
    (fun _ _ hy => ofDecimal_beyond_start h0 hk hy) m x hx

/-- **The shortest decimal is the shortest.**  A decimal that reads back as a magnitude has at least
as many digits. -/
theorem length_shortest_le (tie : Tie) {k m : Nat} {x : Int} (h0 : 0 < k) (hk : k < infinity)
    (hm : ofDecimal m x = k) :
    (Nat.toDigits 10 (shortest tie k).digits).length ≤ (Nat.toDigits 10 m).length := by
  by_contra hlong
  obtain ⟨l, hl⟩ : ∃ l, l + 1 = (Nat.toDigits 10 (shortest tie k).digits).length :=
    ⟨_, Nat.sub_add_cancel Nat.length_toDigits_pos⟩
  have hshort : (Nat.toDigits 10 m).length ≤ l := by omega
  have hlpos : 0 < l := Nat.lt_of_lt_of_le Nat.length_toDigits_pos hshort
  -- a power of ten lies between the two
  have hlow : m < 10 ^ l := (Nat.length_toDigits_le_iff (by decide) hlpos).mp hshort
  have hhigh : 10 ^ l ≤ (shortest tie k).digits := by
    refine Nat.le_of_not_lt fun hlt => ?_
    have := (Nat.length_toDigits_le_iff (by decide) hlpos).mpr hlt
    omega
  have hexp : x ≤ (shortest tie k).exponent := by
    refine Int.le_of_not_gt fun hlt => ofDecimal_beyond_shortest tie h0 hk hlt hm
  have hpower : value 1 (l + (shortest tie k).exponent) =
      value (10 ^ l) (shortest tie k).exponent := by
    rw [value, value, zpow_add₀ (by norm_num), zpow_natCast]
    push_cast
    ring
  have hback : ofDecimal 1 (l + (shortest tie k).exponent) = k := by
    refine Nat.le_antisymm ?_ (hm.symm.trans_le (ofDecimal_mono ?_))
    · exact (ofDecimal_mono (hpower.trans_le (value_le_value _ hhigh))).trans
        (Nat.le_of_eq (ofDecimal_shortest hk))
    · refine ((value_le_value x (Nat.le_of_lt hlow)).trans ?_).trans_eq hpower.symm
      exact mul_le_mul_of_nonneg_left (zpow_le_zpow_right₀ (by norm_num) hexp)
        (Nat.cast_nonneg _)
  exact ofDecimal_beyond_shortest tie h0 hk (by omega) hback

end Decimal

end InfixArith
