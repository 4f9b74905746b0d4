import InfixArith.Proofs.Binary64.Nearest
import Mathlib.Data.Nat.Dist
import Mathlib.Order.Monotone.Basic

/-!
# Binary64 — no magnitude is nearer

What a fraction is rounded to is the magnitude nearest to it, and of two that are equally near the
one with the even number (`nearest_eq_iff`).  Among the magnitudes counts `2 ^ 1024`, which is what
`units` gives for `infinity`: from the middle between it and the greatest finite one on a fraction
is infinite.

* `units_binade`: the magnitudes from one power of two to the next are evenly spaced.
* `exists_between`: a fraction lies between two magnitudes next to each other, and is rounded to the
  nearer one.
-/

namespace InfixArith.Binary64

/-! ### Spacing -/

theorem units_binade {s m : Nat} (hs : s = 0 ∨ binade ≤ m) (hm : m ≤ 2 * binade) :
    units (s * binade + m) = m * 2 ^ s := by
  rw [units, Nat.pow_eq]
  by_cases hlast : m = 2 * binade
  · -- the last magnitude is the first of the next binade
    have hmantissa : mantissa (s * binade + m) = binade := by
      unfold mantissa
      unfold binade at *
      split <;> omega
    have hscale : scale (s * binade + m) = s + 1 := by
      unfold scale
      unfold binade at *
      omega
    rw [hmantissa, hscale, hlast, Nat.pow_succ', ← Nat.mul_assoc, Nat.mul_comm binade]
  · have hmantissa : mantissa (s * binade + m) = m := by
      unfold mantissa
      unfold binade at *
      split <;> omega
    have hscale : scale (s * binade + m) = s := by
      unfold scale
      unfold binade at *
      omega
    rw [hmantissa, hscale]

/-- A magnitude by its place in its binade. -/
theorem exists_place (k : Nat) :
    ∃ s m, k = s * binade + m ∧ (s = 0 ∨ binade ≤ m) ∧ m < 2 * binade := by
  refine ⟨scale k, mantissa k, (scale_mul_binade_add_mantissa k).symm, ?_, ?_⟩
  · unfold scale mantissa
    unfold binade
    split <;> omega
  · unfold mantissa
    unfold binade
    split <;> omega

theorem units_lt_succ (k : Nat) : units k < units (k + 1) := by
  obtain ⟨s, m, rfl, hs, hm⟩ := exists_place k
  rw [Nat.add_assoc, units_binade hs (Nat.le_of_lt hm),
    units_binade (hs.imp_right Nat.le_succ_of_le) hm]
  exact Nat.mul_lt_mul_of_pos_right (Nat.lt_succ_self m) (Nat.two_pow_pos s)

theorem units_strictMono : StrictMono units := strictMono_nat_of_lt_succ units_lt_succ

/-! ### Rounding -/

/-- The number of one of the magnitudes `b` and `b + 1` that `n / d` lies between: the nearer one,
and of two that are equally near the one with the even number. -/
inductive Nearer (n d b : Nat) : Nat → Prop where
  | below (h : 2 * n < (units b + units (b + 1)) * d ∨
      2 * n = (units b + units (b + 1)) * d ∧ b % 2 = 0) : Nearer n d b b
  | above (h : (units b + units (b + 1)) * d < 2 * n ∨
      2 * n = (units b + units (b + 1)) * d ∧ b % 2 = 1) : Nearer n d b (b + 1)

/-- The binade of a fraction, as `nearest` finds it. -/
theorem place_bounds (q : Nat) :
    (q.log2 - 52 = 0 ∨ binade ≤ q / 2 ^ (q.log2 - 52)) ∧ q / 2 ^ (q.log2 - 52) < 2 * binade := by
  have hbinade : binade = 2 ^ 52 := by decide
  have hdouble : 2 * binade = 2 ^ 53 := by decide
  rcases Nat.eq_zero_or_pos q with rfl | hq
  · decide
  · have hlow := Nat.log2_self_le (Nat.ne_of_gt hq)
    have hhigh := Nat.lt_log2_self (n := q)
    obtain ⟨s, hs⟩ : ∃ s, s = q.log2 - 52 := ⟨_, rfl⟩
    rw [← hs, hdouble, hbinade]
    constructor
    · rcases Nat.eq_zero_or_pos s with h0 | hpos
      · exact .inl h0
      · refine .inr ((Nat.le_div_iff_mul_le (Nat.two_pow_pos s)).mpr ?_)
        rw [← Nat.pow_add]
        exact Nat.le_trans (Nat.pow_le_pow_right (by decide) (by omega)) hlow
    · rw [Nat.div_lt_iff_lt_mul (Nat.two_pow_pos s), ← Nat.pow_add]
      exact Nat.lt_of_lt_of_le hhigh (Nat.pow_le_pow_right (by decide) (by omega))

/-- Down up to the middle of a step, up from it on; at the middle to the even number. -/
theorem roundHalfEven_cases (n w : Nat) :
    roundHalfEven n w = n / w ∧ (2 * (n % w) < w ∨ 2 * (n % w) = w ∧ n / w % 2 = 0) ∨
      roundHalfEven n w = n / w + 1 ∧ (w < 2 * (n % w) ∨ 2 * (n % w) = w ∧ n / w % 2 = 1) := by
  unfold roundHalfEven
  dsimp only
  split
  · omega
  · split <;> omega

/-- A fraction lies between two magnitudes next to each other, and is rounded to the nearer one. -/
theorem exists_between (n : Nat) {d : Nat} (hd : 0 < d) :
    ∃ b k, units b * d ≤ n ∧ n < units (b + 1) * d ∧ Nearer n d b k ∧
      nearest n d = min infinity k := by
  obtain ⟨s, hs⟩ : ∃ s, s = (n / d).log2 - 52 := ⟨_, rfl⟩
  obtain ⟨hlow, hhigh⟩ := place_bounds (n / d)
  rw [← hs, Nat.div_div_eq_div_mul] at hlow hhigh
  obtain ⟨q, hq⟩ : ∃ q, q = n / (d * 2 ^ s) := ⟨_, rfl⟩
  rw [← hq] at hlow hhigh
  have hb : units (s * binade + q) = q * 2 ^ s := units_binade hlow (Nat.le_of_lt hhigh)
  have hb' : units (s * binade + q + 1) = (q + 1) * 2 ^ s := by
    rw [Nat.add_assoc, units_binade (hlow.imp_right Nat.le_succ_of_le) hhigh]
  -- `n` is `q` steps of the width `w` and a remainder
  obtain ⟨w, hw⟩ : ∃ w, w = d * 2 ^ s := ⟨_, rfl⟩
  have hwpos : 0 < w := hw ▸ Nat.mul_pos hd (Nat.two_pow_pos s)
  have hstep : ∀ i, i * 2 ^ s * d = i * w := fun i => by
    rw [hw, Nat.mul_assoc, Nat.mul_comm d]
  have hn := Nat.div_add_mod n w
  have hr := Nat.mod_lt n hwpos
  rw [← hw] at hq
  rw [← hq, Nat.mul_comm] at hn
  have hmid : (units (s * binade + q) + units (s * binade + q + 1)) * d = 2 * (q * w) + w := by
    rw [hb, hb', ← Nat.add_mul, hstep, Nat.add_mul, Nat.add_mul]
    omega
  have hparity : (s * binade + q) % 2 = q % 2 := by
    unfold binade
    omega
  have hnearest : nearest n d = min infinity (s * binade + roundHalfEven n w) := by
    rw [nearest, ← hs, hw]
    rfl
  refine ⟨s * binade + q, s * binade + roundHalfEven n w, ?_, ?_, ?_, hnearest⟩
  · rw [hb, hstep]
    omega
  · rw [hb', hstep, Nat.add_mul]
    omega
  · rcases roundHalfEven_cases n w with ⟨hround, h⟩ | ⟨hround, h⟩
    · rw [hround, ← hq]
      exact .below (by omega)
    · rw [hround, ← hq, ← Nat.add_assoc]
      exact .above (by omega)

/-- No magnitude up to infinity is nearer to `n / d` than the one with the number `k`, and only if
this number is even another is as near. -/
structure Closest (n d k : Nat) : Prop where
  le_infinity : k ≤ infinity
  dist_le : ∀ j ≤ infinity, Nat.dist (units k * d) n ≤ Nat.dist (units j * d) n
  even : ∀ j ≤ infinity, j ≠ k → Nat.dist (units j * d) n = Nat.dist (units k * d) n → k % 2 = 0

namespace Closest

variable {n d b k : Nat}

theorem of_nearer (hd : 0 < d) (hlow : units b * d ≤ n) (hhigh : n < units (b + 1) * d)
    (hk : Nearer n d b k) (hfin : k ≤ infinity) : Closest n d k := by
  have hmid := Nat.add_mul (units b) (units (b + 1)) d
  -- any other magnitude lies beyond one of the two
  have hside : ∀ j, j = b ∨ j = b + 1 ∨ units j * d < units b * d ∨
      units (b + 1) * d < units j * d := by
    intro j
    rcases Nat.lt_trichotomy j b with hj | hj | hj
    · exact .inr (.inr (.inl (Nat.mul_lt_mul_of_pos_right (units_strictMono hj) hd)))
    · exact .inl hj
    · rcases Nat.eq_or_lt_of_le hj with hj | hj
      · exact .inr (.inl hj.symm)
      · exact .inr (.inr (.inr (Nat.mul_lt_mul_of_pos_right (units_strictMono hj) hd)))
  refine ⟨hfin, fun j _ => ?_, fun j _ hne heq => ?_⟩
  · unfold Nat.dist
    cases hk with
    | below h | above h => rcases hside j with rfl | rfl | hj | hj <;> omega
  · unfold Nat.dist at heq
    cases hk with
    | below h | above h => rcases hside j with rfl | rfl | hj | hj <;> omega

theorem of_infinity_le (hd : 0 < d) (h : units infinity * d ≤ n) : Closest n d infinity := by
  refine ⟨Nat.le_refl _, fun j hj => ?_, fun j hj hne heq => ?_⟩
  · have hj := Nat.mul_le_mul_right d (units_strictMono.monotone hj)
    unfold Nat.dist
    omega
  · have hj := Nat.mul_lt_mul_of_pos_right (units_strictMono (Nat.lt_of_le_of_ne hj hne)) hd
    unfold Nat.dist at heq
    omega

/-- There is only one such number. -/
theorem unique {l : Nat} (hd : 0 < d) (hk : Closest n d k) (hl : Closest n d l) : k = l := by
  -- of two even numbers the magnitude between would be nearer
  have hno : ∀ {i j}, Closest n d i → Closest n d j → ¬ i < j := by
    intro i j hi hj hlt
    have hdist := Nat.le_antisymm (hi.dist_le j hj.le_infinity) (hj.dist_le i hi.le_infinity)
    have heven := hi.even j hj.le_infinity (Nat.ne_of_gt hlt) hdist.symm
    have heven' := hj.even i hi.le_infinity (Nat.ne_of_lt hlt) hdist
    have hbelow : units i * d < units (i + 1) * d :=
      Nat.mul_lt_mul_of_pos_right (units_lt_succ i) hd
    have habove : units (i + 1) * d < units j * d :=
      Nat.mul_lt_mul_of_pos_right (units_strictMono (by omega)) hd
    have hle := hi.dist_le (i + 1) (Nat.le_trans hlt hj.le_infinity)
    unfold Nat.dist at hdist hle
    omega
  exact Nat.le_antisymm (Nat.le_of_not_lt (hno hl hk)) (Nat.le_of_not_lt (hno hk hl))

end Closest

theorem closest_nearest (n : Nat) {d : Nat} (hd : 0 < d) : Closest n d (nearest n d) := by
  obtain ⟨b, k, hlow, hhigh, hk, hnearest⟩ := exists_between n hd
  rw [hnearest]
  rcases Nat.lt_or_ge infinity k with hinf | hfin
  · -- the fraction lies above all that counts
    rw [Nat.min_eq_left (Nat.le_of_lt hinf)]
    have hb : infinity ≤ b := by
      cases hk with
      | below _ => exact Nat.le_of_lt hinf
      | above _ => exact Nat.le_of_lt_succ hinf
    have hle := Nat.mul_le_mul_right d (units_strictMono.monotone hb)
    exact .of_infinity_le hd (Nat.le_trans hle hlow)
  · rw [Nat.min_eq_right hfin]
    exact .of_nearer hd hlow hhigh hk hfin

/-- **Rounding is correct.**  A fraction is rounded to the magnitude that no other is nearer to it
than, and to the even number if there are two of them. -/
theorem nearest_eq_iff {n d k : Nat} (hd : 0 < d) : nearest n d = k ↔ Closest n d k :=
  ⟨fun h => h ▸ closest_nearest n hd, fun h => (closest_nearest n hd).unique hd h⟩

/-- A decimal is rounded correctly. -/
theorem ofDecimal_eq_iff {m k : Nat} {e : Int} :
    ofDecimal m e = k ↔ Closest (m * 10 ^ e.toNat * unitsOfOne) (10 ^ (-e).toNat) k := by
  rw [ofDecimal_eq_nearest]
  exact nearest_eq_iff (Nat.pow_pos (by decide))

/-! ### Order -/

theorem nearest_infinity : nearest (units infinity) 1 = infinity := by
  rw [nearest_eq_iff Nat.one_pos]
  exact .of_infinity_le Nat.one_pos (Nat.le_of_eq (Nat.mul_one _))

/-- Rounding keeps the order of fractions. -/
theorem nearest_mono {n d n' d' : Nat} (hd : 0 < d) (hd' : 0 < d') (h : n * d' ≤ n' * d) :
    nearest n d ≤ nearest n' d' := by
  rcases Nat.eq_or_lt_of_le h with heq | hlt
  · -- equal fractions
    rw [← nearest_mul n d hd', ← nearest_mul n' d' hd, heq, Nat.mul_comm d]
  · by_contra hgt
    have hk := closest_nearest n hd
    have hk' := closest_nearest n' hd'
    have hunits := units_strictMono (Nat.lt_of_not_le hgt)
    have hdist := hk.dist_le _ hk'.le_infinity
    have hdist' := hk'.dist_le _ hk.le_infinity
    generalize units (nearest n d) = a at *
    generalize units (nearest n' d') = b at *
    -- the first fraction is not below the middle of the two magnitudes, the second not above
    have hlow : (a + b) * d ≤ 2 * n := by
      have hab := Nat.mul_lt_mul_of_pos_right hunits hd
      rw [Nat.add_mul]
      unfold Nat.dist at hdist
      omega
    have hhigh : 2 * n' ≤ (a + b) * d' := by
      have hab := Nat.mul_lt_mul_of_pos_right hunits hd'
      rw [Nat.add_mul]
      unfold Nat.dist at hdist'
      omega
    have hcross := calc
      (a + b) * d * d' ≤ 2 * n * d' := Nat.mul_le_mul_right d' hlow
      _ = 2 * (n * d') := Nat.mul_assoc ..
      _ < 2 * (n' * d) := by omega
      _ = 2 * n' * d := (Nat.mul_assoc ..).symm
      _ ≤ (a + b) * d' * d := Nat.mul_le_mul_right d hhigh
    rw [Nat.mul_right_comm] at hcross
    exact Nat.lt_irrefl _ hcross

/-- A fraction is infinite from the middle between the greatest finite magnitude and `2 ^ 1024` on. -/
theorem nearest_eq_infinity_iff {n d : Nat} (hd : 0 < d) :
    nearest n d = infinity ↔ (units (infinity - 1) + units infinity) * d ≤ 2 * n := by
  have hmid := Nat.add_mul (units (infinity - 1)) (units infinity) d
  have hstrict : ∀ {i j}, i < j → units i * d < units j * d := fun h =>
    Nat.mul_lt_mul_of_pos_right (units_strictMono h) hd
  have hlast := hstrict (show infinity - 1 < infinity by decide)
  have hk := closest_nearest n hd
  constructor
  · intro hinf
    have hdist := hk.dist_le (infinity - 1) (Nat.sub_le _ _)
    rw [hinf] at hdist
    unfold Nat.dist at hdist
    omega
  · intro hle
    by_contra hne
    have hlt := Nat.lt_of_le_of_ne hk.le_infinity hne
    have hdist := hk.dist_le infinity (Nat.le_refl _)
    rcases Nat.eq_or_lt_of_le (Nat.le_sub_one_of_lt hlt) with heq | hbelow
    · -- the number of the greatest finite magnitude is odd
      have heven := hk.even infinity (Nat.le_refl _) (Ne.symm hne)
      rw [heq] at hdist heven
      unfold Nat.dist at hdist heven
      exact absurd (heven (by omega)) (by decide)
    · have hbelow := hstrict hbelow
      unfold Nat.dist at hdist
      omega

end InfixArith.Binary64
