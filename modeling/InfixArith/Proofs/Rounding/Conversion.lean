import InfixArith.Proofs.Binary64.Arithmetic
import InfixArith.Proofs.Rounding.Figures

/-!
# Rounding — from doubles to decimals

A magnitude becomes a decimal with 28 places and about fifteen digits at most.  On the way a
coefficient that is too long is cut off, which loses next to nothing; digits beyond the last place
are dropped one by one, each time rounding half up, and so are those beyond the first fifteen or
sixteen.

* `timesFives_bounds`, `overFives?_bounds`: what cutting off loses.
* `dist_dropDigits`, `dist_narrow`: what dropping digits one by one loses.
* `dist_ofMagnitude?`: how far a decimal is from its magnitude.
-/

namespace InfixArith

namespace Fixed

open Binary64 (magnitude magnitude_eq magnitude_nonneg mantissa scale)

/-! ### Cutting off -/

/-- What cutting a full coefficient off leaves of it at least. -/
def left : ℚ := 1 - 1 / 2 ^ 93

theorem left_pos : 0 < left := by norm_num [left]

theorem left_le_one : left ≤ 1 := by norm_num [left]

/-- `x` is `y`, a coefficient cut off `n` times at most. -/
def CutOff (n : Nat) (x y : ℚ) : Prop := left ^ n * y ≤ x ∧ x ≤ y

theorem CutOff.succ {n : Nat} {x y z : ℚ} (h : CutOff n x y) (hle : left * z ≤ y) (hge : y ≤ z) :
    CutOff (n + 1) x z := by
  refine ⟨?_, h.2.trans hge⟩
  calc
    left ^ (n + 1) * z = left ^ n * (left * z) := by rw [pow_succ, mul_assoc]
    _ ≤ left ^ n * y := mul_le_mul_of_nonneg_left hle (pow_pos left_pos n).le
    _ ≤ x := h.1

theorem CutOff.same {n : Nat} {x y z : ℚ} (h : CutOff n x y) (hy : 0 ≤ y) (heq : z = y) :
    CutOff (n + 1) x z := by
  rw [heq]
  exact h.succ (mul_le_of_le_one_left hy left_le_one) (le_refl y)

/-- A long coefficient over a small divisor, rounded down. -/
theorem left_mul_le {m d : Nat} (hd : 0 < d) (hm : 2 ^ 93 * (d - 1) ≤ m) :
    left * (m / d : ℚ) ≤ (m / d : Nat) := by
  have hd' : (0 : ℚ) < d := by exact_mod_cast hd
  have hdiv : (m : ℚ) ≤ (m / d : Nat) * d + (d - 1 : Nat) := by
    have h := Nat.div_add_mod' m d
    have hr := Nat.mod_lt m hd
    exact_mod_cast (by omega : m ≤ m / d * d + (d - 1))
  have hrest : ((d - 1 : Nat) : ℚ) ≤ m / 2 ^ 93 := by
    rw [le_div_iff₀ (by norm_num), mul_comm]
    exact_mod_cast hm
  rw [← mul_div_assoc, div_le_iff₀ hd', left]
  linarith

theorem timesFives_bounds (n m : Nat) (e : Int) :
    CutOff n ((timesFives n m e).1 * 10 ^ (timesFives n m e).2) (m * 5 ^ n * 10 ^ e) := by
  induction n generalizing m e with
  | zero =>
      rw [timesFives, CutOff, pow_zero, pow_zero, one_mul, mul_one]
      exact ⟨le_refl _, le_refl _⟩
  | succ n ih =>
      have hhalf : ∀ q : ℚ, q * 5 ^ n * 10 ^ (e + 1) = 2 * q * 5 ^ (n + 1) * 10 ^ e := by
        intro q
        rw [zpow_add_one₀ (by norm_num), pow_succ]
        ring
      rw [timesFives]
      split
      · next heven =>
        have hm : (m : ℚ) = 2 * (m / 2 : Nat) := by exact_mod_cast (by omega : m = 2 * (m / 2))
        exact (ih (m / 2) (e + 1)).same (by positivity) (by rw [hhalf, ← hm])
      · split
        · refine (ih (5 * m) e).same (by positivity) ?_
          push_cast
          ring
        · next hlong =>
          have hcut := left_mul_le (m := m) (d := 2) (by decide)
            (by unfold coefficientBound at hlong; omega)
          have hle : ((m / 2 : Nat) : ℚ) ≤ m / 2 := by exact_mod_cast Nat.cast_div_le
          have hpos : (0 : ℚ) ≤ 2 * 5 ^ (n + 1) * 10 ^ e := by positivity
          refine (ih (m / 2) (e + 1)).succ ?_ ?_
          · rw [hhalf]
            have := mul_le_mul_of_nonneg_right hcut hpos
            push_cast at this
            linarith
          · rw [hhalf]
            have := mul_le_mul_of_nonneg_right hle hpos
            linarith

theorem overFives?_bounds {n m c : Nat} {e x : Int} (h : overFives? n m e = some (c, x)) :
    CutOff n (c * 10 ^ x) (m / 5 ^ n * 10 ^ e) := by
  induction n generalizing m e with
  | zero =>
      cases h
      rw [CutOff, pow_zero, pow_zero, one_mul, div_one]
      exact ⟨le_refl _, le_refl _⟩
  | succ n ih =>
      rw [overFives?] at h
      split at h
      · refine (ih h).same (by positivity) ?_
        rw [zpow_sub_one₀ (by norm_num), pow_succ]
        push_cast
        field_simp
        ring
      · next hlong =>
        split at h
        · cases h
        · have hcut := left_mul_le (m := m) (d := 5) (by decide)
            (by unfold coefficientBound at hlong; omega)
          have hle : ((m / 5 : Nat) : ℚ) ≤ m / 5 := by exact_mod_cast Nat.cast_div_le
          have hpos : (0 : ℚ) ≤ 10 ^ e / 5 ^ n := by positivity
          have hfive : (m : ℚ) / 5 ^ (n + 1) * 10 ^ e = m / 5 * (10 ^ e / 5 ^ n) := by
            rw [pow_succ]
            field_simp
          have hrest : ((m / 5 : Nat) : ℚ) / 5 ^ n * 10 ^ e = (m / 5 : Nat) * (10 ^ e / 5 ^ n) := by
            rw [div_mul_eq_mul_div, mul_div_assoc]
          refine (ih h).succ ?_ ?_
          · rw [hfive, hrest, ← mul_assoc]
            exact mul_le_mul_of_nonneg_right (by exact_mod_cast hcut) hpos
          · rw [hfive, hrest]
            exact mul_le_mul_of_nonneg_right hle hpos

/-! ### Dropping digits -/

theorem dropDigit_bounds (m : Nat) : 10 * dropDigit m ≤ m + 5 ∧ m ≤ 10 * dropDigit m + 4 := by
  unfold dropDigit
  split <;> omega

theorem dist_dropDigit (m : Nat) : |(dropDigit m : ℚ) - m / 10| ≤ 1 / 2 := by
  obtain ⟨hup, hdown⟩ := dropDigit_bounds m
  have hup : (10 : ℚ) * dropDigit m ≤ m + 5 := by exact_mod_cast hup
  have hdown : (m : ℚ) ≤ 10 * dropDigit m + 4 := by exact_mod_cast hdown
  rw [abs_le]
  constructor <;> linarith

/-- A digit dropped moves the number by half a unit of the place before it. -/
theorem dist_dropDigit_div (m n : Nat) :
    |(dropDigit m : ℚ) / 10 ^ n - m / 10 ^ (n + 1)| ≤ 5 / 9 / 10 ^ n - 5 / 9 / 10 ^ (n + 1) := by
  have hsplit : (dropDigit m : ℚ) / 10 ^ n - m / 10 ^ (n + 1) =
      (dropDigit m - m / 10) * (1 / 10 ^ n) := by
    rw [pow_succ]
    field_simp
  have hunit : (5 : ℚ) / 9 / 10 ^ n - 5 / 9 / 10 ^ (n + 1) = 1 / 2 * (1 / 10 ^ n) := by
    rw [pow_succ]
    field_simp
    norm_num
  rw [hsplit, hunit, abs_mul, abs_of_nonneg (a := 1 / (10 : ℚ) ^ n) (by positivity)]
  exact mul_le_mul_of_nonneg_right (dist_dropDigit m) (by positivity)

/-- Digits dropped one by one: each rounds by half a digit at most, and the last one is lost. -/
theorem dist_dropDigits (n m : Nat) :
    |(dropDigits n m : ℚ) - m / 10 ^ n| ≤ 43 / 45 - 5 / 9 / 10 ^ n := by
  induction n generalizing m with
  | zero =>
      rw [dropDigits, pow_zero, div_one, sub_self, abs_zero]
      norm_num
  | succ n ih =>
      have hten : (1 : ℚ) ≤ 10 ^ n := one_le_pow₀ (by norm_num)
      have hinv : (1 : ℚ) / 10 ^ n ≤ 1 := by rw [div_le_one (by positivity)]; exact hten
      rw [dropDigits]
      split
      · next hsmall =>
        have hm : (m : ℚ) ≤ 9 := by exact_mod_cast (by omega : m ≤ 9)
        have hvalue : (m : ℚ) / 10 ^ (n + 1) ≤ 9 / 10 * (1 / 10 ^ n) := by
          rw [pow_succ, div_mul_div_comm, div_le_div_iff₀ (by positivity) (by positivity)]
          nlinarith
        have hlast : (5 : ℚ) / 9 / 10 ^ (n + 1) = 1 / 18 * (1 / 10 ^ n) := by
          rw [pow_succ]
          field_simp
          norm_num
        rw [Nat.cast_zero, zero_sub, abs_neg, abs_of_nonneg (by positivity), hlast]
        linarith
      · have hdrop := dist_dropDigit_div m n
        have := abs_sub_le (dropDigits n (dropDigit m) : ℚ) (dropDigit m / 10 ^ n)
          (m / 10 ^ (n + 1))
        have := ih (dropDigit m)
        linarith

/-- Digits beyond the last place are dropped. -/
theorem dist_dropped (m : Nat) {k : Nat} (hk : maxPlaces ≤ k) :
    |value ⟨dropDigits (k - maxPlaces) m, maxPlaces⟩ - m / 10 ^ k| ≤ 43 / 45 / 10 ^ 28 := by
  obtain ⟨j, rfl⟩ : ∃ j, k = j + maxPlaces := ⟨k - maxPlaces, by omega⟩
  have hsplit : value ⟨dropDigits j m, maxPlaces⟩ - m / 10 ^ (j + maxPlaces) =
      (dropDigits j m - m / 10 ^ j) / 10 ^ maxPlaces := by
    rw [value, pow_add]
    field_simp
  rw [Nat.add_sub_cancel, hsplit, abs_div, abs_of_pos (a := (10 : ℚ) ^ maxPlaces) (by positivity)]
  refine div_le_div_of_nonneg_right ((dist_dropDigits j m).trans ?_) (by positivity)
  exact sub_le_self _ (by positivity)

/-- A power of ten is written out, or its last digits are dropped. -/
theorem ofScaled?_eq_some {m : Nat} {e : Int} {f : Fixed} (h : ofScaled? m e = some f) :
    f.places ≤ maxPlaces ∧ |f.value - m * 10 ^ e| ≤ 43 / 45 / 10 ^ 28 ∧
      (f.value = m * 10 ^ e ∨ f.places = maxPlaces) := by
  have hexact : ∀ {x y : ℚ}, x = y → |x - y| ≤ 43 / 45 / 10 ^ 28 := by
    rintro x y rfl
    rw [sub_self, abs_zero]
    norm_num
  rw [ofScaled?] at h
  split at h
  · next hpos =>
    have hten : (10 : ℚ) ^ e = 10 ^ e.toNat := by
      rw [← zpow_natCast, Int.toNat_of_nonneg hpos]
    dsimp only at h
    split at h
    · cases h
      have hvalue : value ⟨m * Nat.pow 10 e.toNat, 0⟩ = m * 10 ^ e := by
        rw [value, hten, Nat.pow_eq]
        push_cast
        rw [pow_zero, div_one]
      exact ⟨Nat.zero_le _, hexact hvalue, .inl hvalue⟩
    · cases h
  · next hneg =>
    have hten : (10 : ℚ) ^ e = 1 / 10 ^ (-e).toNat := by
      rw [← zpow_natCast, Int.toNat_of_nonneg (by omega), zpow_neg, one_div, inv_inv]
    split at h
    · next hfew =>
      cases h
      have hvalue : value ⟨m, (-e).toNat⟩ = m * 10 ^ e := by
        rw [value, hten, mul_one_div]
      exact ⟨by dsimp only; omega, hexact hvalue, .inl hvalue⟩
    · next hmany =>
      cases h
      refine ⟨Nat.le_refl _, ?_, .inr rfl⟩
      rw [hten, mul_one_div]
      exact dist_dropped m (by omega)

/-- What is lost beyond the last place is small beside a long coefficient. -/
theorem dist_ofScaled? {m : Nat} {e : Int} {f : Fixed} (h : ofScaled? m e = some f)
    (hlong : doubleBound ≤ f.coefficient) : |f.value - m * 10 ^ e| ≤ f.value / 2 ^ 52 := by
  obtain ⟨-, hdist, heq | hplaces⟩ := ofScaled?_eq_some h
  · rw [heq, sub_self, abs_zero, ← heq, value]
    positivity
  · refine hdist.trans ?_
    have hlong : (2 : ℚ) ^ 52 ≤ f.coefficient := by exact_mod_cast hlong
    have hunit : (43 : ℚ) / 45 ≤ f.coefficient / 2 ^ 52 := by linarith
    rw [value, hplaces, div_right_comm (f.coefficient : ℚ)]
    exact div_le_div_of_nonneg_right hunit (by positivity : (0 : ℚ) ≤ 10 ^ 28)

/-- Digits dropped until the coefficient is short enough; if any are, it stays long. -/
theorem narrow_bounds (p m : Nat) :
    let f := narrow p m
    f.places ≤ p ∧
      |f.value - m / 10 ^ p| ≤ 5 / 9 / 10 ^ f.places - 5 / 9 / 10 ^ p ∧
      (f = ⟨m, p⟩ ∨ doubleBound ≤ m ∧ doubleBound ≤ 10 * f.coefficient + 4) := by
  have hsame : ∀ p m : Nat, |value ⟨m, p⟩ - m / 10 ^ p| ≤ 5 / 9 / 10 ^ p - 5 / 9 / 10 ^ p := by
    intro p m
    rw [value, sub_self, sub_self, abs_zero]
  induction p generalizing m with
  | zero =>
      rw [narrow]
      exact ⟨Nat.le_refl 0, hsame 0 m, .inl rfl⟩
  | succ p ih =>
      rw [narrow]
      split
      · next hlong =>
        obtain ⟨hplaces, hdist, hsize⟩ := ih (dropDigit m)
        refine ⟨Nat.le_succ_of_le hplaces, ?_, .inr ⟨hlong, ?_⟩⟩
        · have := abs_sub_le (narrow p (dropDigit m)).value (dropDigit m / 10 ^ p)
            (m / 10 ^ (p + 1))
          have := dist_dropDigit_div m p
          linarith
        · rcases hsize with hsize | ⟨-, hsize⟩
          · rw [hsize]
            exact hlong.trans (dropDigit_bounds m).2
          · exact hsize
      · exact ⟨Nat.le_refl _, hsame (p + 1) m, .inl rfl⟩

/-- What is dropped to make a coefficient short is small beside what stays of it. -/
theorem dist_narrow (p m : Nat) :
    narrow p m = ⟨m, p⟩ ∨ doubleBound ≤ m ∧
      |(narrow p m).value - m / 10 ^ p| ≤ 50 / 9 / (2 ^ 52 - 4) * (narrow p m).value := by
  obtain ⟨-, hloss, hsize⟩ := narrow_bounds p m
  refine hsize.imp_right fun ⟨hlong, hshort⟩ => ⟨hlong, ?_⟩
  have hshort : (2 : ℚ) ^ 52 ≤ 10 * (narrow p m).coefficient + 4 := by exact_mod_cast hshort
  have hunit : 5 / 9 / 10 ^ (narrow p m).places ≤
      50 / 9 / (2 ^ 52 - 4) * (narrow p m).value := by
    rw [value, ← mul_div_assoc]
    refine div_le_div_of_nonneg_right ?_ (by positivity)
    linarith
  have hpos : (0 : ℚ) ≤ 5 / 9 / 10 ^ p := by positivity
  linarith

theorem strip_bounds (p m : Nat) :
    (strip p m).places ≤ p ∧ (strip p m).value = m / 10 ^ p := by
  induction p generalizing m with
  | zero =>
      rw [strip]
      exact ⟨Nat.le_refl 0, rfl⟩
  | succ p ih =>
      rw [strip]
      split
      · next hzero =>
        obtain ⟨hplaces, hvalue⟩ := ih (m / 10)
        refine ⟨Nat.le_succ_of_le hplaces, ?_⟩
        have hm : (m : ℚ) = 10 * (m / 10 : Nat) := by exact_mod_cast (by omega : m = 10 * (m / 10))
        rw [hvalue, pow_succ, hm]
        field_simp
      · exact ⟨Nat.le_refl _, rfl⟩

/-! ### The whole conversion -/

/-- A coefficient is cut off too seldom to matter. -/
theorem CutOff.dist_le {n : Nat} {x y : ℚ} (hn : n ≤ 1074) (hy : 0 ≤ y) (h : CutOff n x y) :
    y - y / 2 ^ 80 ≤ x ∧ x ≤ y := by
  have hbernoulli : 1 + (n : ℚ) * (-1 / 2 ^ 93) ≤ (1 + -1 / 2 ^ 93) ^ n :=
    one_add_mul_le_pow (by norm_num) n
  have hleft : (1 : ℚ) + -1 / 2 ^ 93 = left := by rw [left]; ring
  have hfew : (n : ℚ) ≤ 1074 := by exact_mod_cast hn
  have hkeep : 1 - 1 / 2 ^ 80 ≤ left ^ n := by
    rw [← hleft]
    refine le_trans ?_ hbernoulli
    norm_num
    linarith
  refine ⟨?_, h.2⟩
  calc
    y - y / 2 ^ 80 = (1 - 1 / 2 ^ 80) * y := by ring
    _ ≤ left ^ n * y := mul_le_mul_of_nonneg_right hkeep hy
    _ ≤ x := h.1

/-- The fives of a magnitude multiplied or divided out. -/
inductive Scaled (k c : Nat) (x : Int) : Prop where
  | multiplied (hneg : (scale k : Int) - 1074 ≤ 0)
      (h : timesFives (-((scale k : Int) - 1074)).toNat (mantissa k) (scale k - 1074) = (c, x))
  | divided (hpos : 0 < (scale k : Int) - 1074)
      (h : overFives? ((scale k : Int) - 1074).toNat (mantissa k) (scale k - 1074) = some (c, x))

/-- The steps of a conversion; taking zeros off the end changes nothing. -/
theorem exists_scaled {k : Nat} {d : Fixed} (h : ofMagnitude? k = some d) :
    ∃ c x f, Scaled k c x ∧ ofScaled? c x = some f ∧ d.places ≤ f.places ∧
      d.value = (narrow f.places f.coefficient).value := by
  have hsteps : ∃ c x f, Scaled k c x ∧ ofScaled? c x = some f ∧
      d = strip (narrow f.places f.coefficient).places
        (narrow f.places f.coefficient).coefficient := by
    rw [ofMagnitude?] at h
    dsimp only at h
    split at h
    · next hneg =>
      obtain ⟨⟨c, x⟩, hscaled, h⟩ := Option.bind_eq_some_iff.mp h
      obtain ⟨f, hf, h⟩ := Option.bind_eq_some_iff.mp h
      cases h
      exact ⟨c, x, f, .multiplied hneg (Option.some.inj hscaled), hf, rfl⟩
    · next hpos =>
      obtain ⟨⟨c, x⟩, hscaled, h⟩ := Option.bind_eq_some_iff.mp h
      obtain ⟨f, hf, h⟩ := Option.bind_eq_some_iff.mp h
      cases h
      exact ⟨c, x, f, .divided (Int.lt_of_not_ge hpos) hscaled, hf, rfl⟩
  obtain ⟨c, x, f, hscaled, hf, rfl⟩ := hsteps
  obtain ⟨hstrip, hvalue⟩ := strip_bounds (narrow f.places f.coefficient).places
    (narrow f.places f.coefficient).coefficient
  exact ⟨c, x, f, hscaled, hf, hstrip.trans (narrow_bounds f.places f.coefficient).1, hvalue⟩

theorem Scaled.bounds {k c : Nat} {x : Int} (hk : k < Binary64.infinity) (h : Scaled k c x) :
    magnitude k - magnitude k / 2 ^ 80 ≤ c * 10 ^ x ∧ (c : ℚ) * 10 ^ x ≤ magnitude k := by
  have hscale : scale k ≤ 2045 := by
    unfold scale
    unfold Binary64.infinity at hk
    unfold Binary64.binade
    omega
  obtain ⟨e, he⟩ : ∃ e, e = (scale k : Int) - 1074 := ⟨_, rfl⟩
  have hvalue := magnitude_eq k
  rw [← he] at hvalue
  have hten : (10 : ℚ) ^ e = 5 ^ e * 2 ^ e := by
    rw [← mul_zpow]
    norm_num
  have hcut : ∃ n ≤ 1074, CutOff n (c * 10 ^ x) (magnitude k) := by
    cases h with
    | multiplied hneg h =>
      rw [← he] at hneg h
      refine ⟨(-e).toNat, by omega, ?_⟩
      have hfive : (5 : ℚ) ^ (-e).toNat * 5 ^ e = 1 := by
        rw [← zpow_natCast, ← zpow_add₀ (by norm_num), Int.toNat_of_nonneg (by omega),
          neg_add_cancel, zpow_zero]
      have hbounds := timesFives_bounds (-e).toNat (mantissa k) e
      rw [h, mul_assoc, hten, ← mul_assoc (5 ^ (-e).toNat), hfive, one_mul,
        ← hvalue] at hbounds
      exact hbounds
    | divided hpos h =>
      rw [← he] at hpos h
      refine ⟨e.toNat, by omega, ?_⟩
      have hfive : (5 : ℚ) ^ e = 5 ^ e.toNat := by
        rw [← zpow_natCast, Int.toNat_of_nonneg (by omega)]
      have hbounds := overFives?_bounds h
      rw [hten, hfive, ← mul_assoc, div_mul_cancel₀ _ (by positivity), ← hvalue] at hbounds
      exact hbounds
  obtain ⟨n, hn, hcut⟩ := hcut
  exact hcut.dist_le hn (magnitude_nonneg k)

/-- **How far a decimal is from its magnitude**: less than one in the 28th place, or two parts in
`10 ^ 15` at most. -/
theorem dist_ofMagnitude? {k : Nat} {d : Fixed} (hk : k < Binary64.infinity)
    (h : ofMagnitude? k = some d) :
    d.places ≤ maxPlaces ∧
      |d.value - magnitude k| ≤ max (24 / 25 / 10 ^ 28) (magnitude k / (5 * 10 ^ 14)) := by
  obtain ⟨c, x, f, hscaled, hf, hplaces, hvalue⟩ := exists_scaled h
  obtain ⟨hlow, hhigh⟩ := hscaled.bounds hk
  obtain ⟨hplaces', hdist, -⟩ := ofScaled?_eq_some hf
  refine ⟨hplaces.trans hplaces', ?_⟩
  have hpos := magnitude_nonneg k
  rw [hvalue]
  rcases dist_narrow f.places f.coefficient with hsame | ⟨hlong, hnarrow⟩
  · -- nothing was lost but beyond the last place and by cutting off
    obtain ⟨hd, hd'⟩ := abs_le.mp hdist
    rw [hsame]
    rcases le_total (magnitude k) (1 / 10 ^ 10) with hsmall | hlarge
    · refine le_max_of_le_left (abs_le.mpr ?_)
      constructor <;> linarith
    · refine le_max_of_le_right (abs_le.mpr ?_)
      constructor <;> linarith
  · refine le_max_of_le_right (abs_le.mpr ?_)
    obtain ⟨hd, hd'⟩ := abs_le.mp hnarrow
    obtain ⟨hl, hl'⟩ := abs_le.mp (dist_ofScaled? hf hlong)
    rw [← value] at hd hd'
    constructor <;> linarith

end Fixed

end InfixArith
