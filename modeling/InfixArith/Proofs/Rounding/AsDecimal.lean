import InfixArith.Proofs.Rounding.Conversion
import InfixArith.Proofs.Rounding.ToFloat

/-!
# Rounding — how a double is rounded as a decimal

A double is rounded as the decimal that it was taken to, exactly; and the result is taken back to a
double.

* `nearestTo_roundFigures_inj`: decimals of fifteen figures are told apart by their nearest doubles.
* `asDecimal?_rounded`: what comes out, and when it is the double rounded correctly.
-/

namespace InfixArith.Rounding

open Binary64

variable {n : Nat} {x y : ℚ}

/-! ### Figures -/

/-- So many figures of a number are before the point once it is divided by the unit of the last. -/
theorem div_unit_bounds (hx : 0 < x) (hn : n ≠ 0) :
    1 ≤ x / 10 ^ (Int.log 10 x + 1 - n) ∧ x / 10 ^ (Int.log 10 x + 1 - n) < 10 ^ n := by
  have hlow : (10 : ℚ) ^ Int.log 10 x ≤ x := by exact_mod_cast Int.zpow_log_le_self (by decide) hx
  have hhigh : x < 10 ^ (Int.log 10 x + 1) := by
    exact_mod_cast Int.lt_zpow_succ_log_self (b := 10) (by decide) x
  constructor
  · rw [one_le_div (by positivity)]
    exact le_trans (zpow_le_zpow_right₀ (by norm_num) (by omega)) hlow
  · rw [div_lt_iff₀ (by positivity), ← zpow_natCast, ← zpow_add₀ (by norm_num)]
    rwa [show (n : Int) + (Int.log 10 x + 1 - n) = Int.log 10 x + 1 by omega]

/-- A rounded number is as many units of its last place as its figures say. -/
theorem exists_figures (hx : 0 < x) (hn : n ≠ 0) :
    ∃ (a : Nat) (z : Int), a ≤ 10 ^ n ∧ roundFigures n x = a * 10 ^ z := by
  obtain ⟨hlow, hhigh⟩ := div_unit_bounds hx hn
  refine ⟨_, _, Nat.le_of_lt_succ ((Nat.floor_lt (by linarith)).mpr ?_), rfl⟩
  push_cast
  linarith

theorem roundFigures_bounds (hx : 0 < x) (hn : n ≠ 0) :
    x / 2 ≤ roundFigures n x ∧ roundFigures n x ≤ 2 * x := by
  obtain ⟨hlow, -⟩ := div_unit_bounds hx hn
  obtain ⟨u, hu⟩ : ∃ u : ℚ, u = 10 ^ (Int.log 10 x + 1 - n) := ⟨_, rfl⟩
  have hpos : 0 < u := hu ▸ by positivity
  rw [roundFigures, ← hu]
  rw [← hu] at hlow
  have hfloor := Nat.floor_le (show 0 ≤ x / u + 1 / 2 by linarith)
  have hceil := Nat.lt_floor_add_one (x / u + 1 / 2)
  have hunit : x / u * u = x := div_mul_cancel₀ x hpos.ne'
  constructor
  · calc
      x / 2 = x / u / 2 * u := by rw [div_mul_eq_mul_div, hunit]
      _ ≤ ⌊x / u + 1 / 2⌋₊ * u := mul_le_mul_of_nonneg_right (by linarith) hpos.le
  · calc
      ⌊x / u + 1 / 2⌋₊ * u ≤ 2 * (x / u) * u := mul_le_mul_of_nonneg_right (by linarith) hpos.le
      _ = 2 * x := by rw [mul_assoc, hunit]

/-- Of two numbers of fifteen figures one is larger by a part of itself at least. -/
theorem figures_apart {a b : Nat} {i j : Int} (ha : a ≤ 10 ^ 15) (hb : b ≤ 10 ^ 15)
    (h : (a * 10 ^ i : ℚ) < b * 10 ^ j) : (a * 10 ^ i : ℚ) * (1 + 1 / 10 ^ 15) ≤ b * 10 ^ j := by
  -- both are whole multiples of the smaller power of ten
  have hcommon : ∀ {c d : Nat} {z : Int}, c ≤ 10 ^ 15 → (c * 10 ^ z : ℚ) < d * 10 ^ z →
      (c * 10 ^ z : ℚ) * (1 + 1 / 10 ^ 15) ≤ d * 10 ^ z := by
    intro c d z hc hcd
    have hz : (0 : ℚ) < 10 ^ z := by positivity
    have hlt : c < d := by exact_mod_cast lt_of_mul_lt_mul_right hcd hz.le
    have hlt' : (c : ℚ) + 1 ≤ d := by exact_mod_cast hlt
    have hc' : (c : ℚ) ≤ 10 ^ 15 := by exact_mod_cast hc
    rw [mul_right_comm]
    refine mul_le_mul_of_nonneg_right ?_ hz.le
    linarith
  have hshift : ∀ (c : Nat) {y z : Int}, z ≤ y →
      (c * 10 ^ y : ℚ) = (c * 10 ^ (y - z).toNat : Nat) * 10 ^ z := by
    intro c y z hzy
    push_cast
    rw [mul_assoc, ← zpow_natCast, ← zpow_add₀ (by norm_num), Int.toNat_of_nonneg (by omega),
      sub_add_cancel]
  rcases le_total i j with hij | hji
  · rw [hshift b hij] at h ⊢
    exact hcommon ha h
  · rw [hshift a hji] at h ⊢
    have hlt : a * 10 ^ (i - j).toNat < b := by
      exact_mod_cast lt_of_mul_lt_mul_right h (by positivity)
    exact hcommon (by omega) h

theorem moderate_roundFigures (hn : n ≠ 0) (hlow : 1 / 10 ^ 40 ≤ x) (hhigh : x ≤ 10 ^ 40) :
    Moderate (roundFigures n x) := by
  obtain ⟨hdown, hup⟩ := roundFigures_bounds (lt_of_lt_of_le (by norm_num) hlow) hn
  constructor <;> norm_num at * <;> linarith

/-- Numbers of fifteen figures are told apart by their nearest doubles. -/
theorem nearestTo_roundFigures_inj (hn0 : n ≠ 0) (hn : n ≤ 15) (hx : 1 / 10 ^ 40 ≤ x)
    (hx' : x ≤ 10 ^ 40) (hy : 1 / 10 ^ 40 ≤ y) (hy' : y ≤ 10 ^ 40)
    (h : nearestTo (roundFigures n x) = nearestTo (roundFigures n y)) :
    roundFigures n x = roundFigures n y := by
  have hpow : 10 ^ n ≤ 10 ^ 15 := Nat.pow_le_pow_right (by decide) hn
  obtain ⟨a, i, ha, hai⟩ := exists_figures (lt_of_lt_of_le (by norm_num) hx) hn0
  obtain ⟨b, j, hb, hbj⟩ := exists_figures (lt_of_lt_of_le (by norm_num) hy) hn0
  have hx := moderate_roundFigures hn0 hx hx'
  have hy := moderate_roundFigures hn0 hy hy'
  have hnear : Apart 2 (roundFigures n x) (roundFigures n y) := by
    have hround := (hx.rounded (Nat.zero_le 64) (.refl _)).2
    rw [h] at hround
    exact hround.symm.trans (hy.rounded (Nat.zero_le 64) (.refl _)).2
  have hpos := hx.pos
  have hpos' := hy.pos
  -- two roundings are less than one part in `10 ^ 15`
  have hxy := hnear.abs_sub_le (c := 3 / 2 ^ 53) (by norm_num [kept]) (by norm_num) hpos'.le
  have hyx := hnear.symm.abs_sub_le (c := 3 / 2 ^ 53) (by norm_num [kept]) (by norm_num) hpos.le
  obtain ⟨-, hxy⟩ := abs_le.mp hxy
  obtain ⟨-, hyx⟩ := abs_le.mp hyx
  rcases lt_trichotomy (roundFigures n x) (roundFigures n y) with hlt | heq | hgt
  · have hfar : roundFigures n x * (1 + 1 / 10 ^ 15) ≤ roundFigures n y := by
      rw [hai, hbj] at hlt ⊢
      exact figures_apart (ha.trans hpow) (hb.trans hpow) hlt
    linarith
  · exact heq
  · have hfar : roundFigures n y * (1 + 1 / 10 ^ 15) ≤ roundFigures n x := by
      rw [hai, hbj] at hgt ⊢
      exact figures_apart (hb.trans hpow) (ha.trans hpow) hgt
    linarith

/-! ### Decimals -/

section

variable {f g : Fixed}

theorem value_pos (hf : f.coefficient ≠ 0) : 0 < f.value :=
  div_pos (by exact_mod_cast Nat.pos_of_ne_zero hf) (by positivity)

theorem le_value (hf : f.coefficient ≠ 0) (hplaces : f.places ≤ Fixed.maxPlaces) :
    1 / 10 ^ 28 ≤ f.value := by
  have hc : (1 : ℚ) ≤ f.coefficient := by exact_mod_cast Nat.pos_of_ne_zero hf
  rw [Fixed.value]
  exact div_le_div₀ (by linarith) hc (by positivity) (pow_le_pow_right₀ (by norm_num) hplaces)

theorem value_eq_div (g : Fixed) : g.value = g.coefficient / (10 ^ g.places : Nat) := by
  rw [Fixed.value]
  push_cast
  rfl

theorem coefficient_ne_zero_of_roundedTo (hf : f.coefficient ≠ 0) (hn : n ≠ 0)
    (hg : Fixed.RoundedTo n f g) : g.coefficient ≠ 0 := by
  intro h0
  have hpos := value_pos hf
  have hround := (roundFigures_bounds hpos hn).1
  have hzero : g.value = 0 := by rw [Fixed.value, h0, Nat.cast_zero, zero_div]
  rw [← hg.value_eq, hzero] at hround
  linarith

/-- What needs few figures and few places goes back to the nearest double. -/
theorem toFloat_of_roundedTo (hg : Fixed.RoundedTo n f g)
    (hfew : n ≤ 15 ∧ g.places < 23 ∨ g.places = 0) :
    g.toFloat = ofRank false (nearestTo (g.coefficient / (10 ^ g.places : Nat))) := by
  by_cases h0 : g.places = 0
  · obtain ⟨c, p⟩ := g
    cases h0
    rw [Fixed.toFloat_whole, Nat.pow_zero, Nat.cast_one, div_one]
  · refine Fixed.toFloat_nearest ?_ (by omega)
    exact (hg.size.resolve_right fun h => h0 h.1).trans
      (Nat.pow_le_pow_right (by decide) (by omega))

/-- A decimal is rounded, and goes back to a double that is near, or nearest. -/
theorem toFloat_round? (hf : f.coefficient ≠ 0) (hplaces : f.places ≤ Fixed.maxPlaces) (hn : n ≠ 0)
    (hn' : n ≤ 16) (h : f.round? n = some g) :
    ∃ k < infinity, g.toFloat = ofRank false k ∧ Apart 21 (magnitude k) (roundFigures n f.value) ∧
      roundFigures n f.value ≤ 10 ^ 29 ∧
      (n ≤ 15 ∧ n ≤ Int.log 10 f.value + 23 ∨ n ≤ Int.log 10 f.value + 1 →
        k = nearestTo (roundFigures n f.value)) := by
  have hg := Fixed.round?_eq_some hf h
  have hlast := hg.places_eq
  have hmost : g.places < 44 := by
    have hle := Fixed.places_le_of_round? h
    unfold Fixed.maxPlaces at hplaces
    omega
  have hpow : 10 ^ n ≤ 10 ^ 16 := Nat.pow_le_pow_right (by decide) hn'
  have hsize := hg.size.imp_left hpow.trans'
  obtain ⟨k, hk, hfloat, hnear⟩ := Fixed.toFloat_approximates
    (coefficient_ne_zero_of_roundedTo hf hn hg) hmost hsize
  rw [← hg.value_eq, value_eq_div]
  refine ⟨k, hk, hfloat, hnear, ?_, fun hfew => ?_⟩
  · have hc : g.coefficient ≤ 10 ^ 29 := by
      unfold Fixed.coefficientBound at hsize
      omega
    exact (div_le_self (Nat.cast_nonneg _) (Fixed.one_le_pow_ten _)).trans (by exact_mod_cast hc)
  · rw [← rank_ofRank false hk.le, ← hfloat, toFloat_of_roundedTo hg (by omega),
      rank_ofRank false (nearestTo_le_infinity _)]

end

/-- The double nearest to `v` rounded to `n` significant figures. -/
def correctlyRounded (v : Float) (n : Nat) : Float :=
  ofRank (isNegative v) (nearestTo (roundFigures n (magnitude (rank v))))

/-- The double nearest to `v` rounded to `n` figures is the one nearest to the rounded decimal
exactly if the decimal is rounded as `v` is. -/
theorem correctlyRounded_iff {v : Float} {d : Fixed} (hn : n ≠ 0) (hn' : n ≤ 15)
    (hd : d.coefficient ≠ 0) (hplaces : d.places ≤ Fixed.maxPlaces) (hbound : d.value ≤ 10 ^ 30)
    (hdist : |d.value - magnitude (rank v)| ≤
      max (24 / 25 / 10 ^ 28) (magnitude (rank v) / (5 * 10 ^ 14))) :
    ofRank (isNegative v) (nearestTo (roundFigures n d.value)) = correctlyRounded v n ↔
      roundFigures n (magnitude (rank v)) = roundFigures n d.value := by
  have hleast := le_value hd hplaces
  have hV := magnitude_nonneg (rank v)
  have hrange : 1 / 10 ^ 40 ≤ magnitude (rank v) ∧ magnitude (rank v) ≤ 10 ^ 40 := by
    rcases le_max_iff.mp hdist with h | h <;> obtain ⟨hlow, hhigh⟩ := abs_le.mp h <;>
      constructor <;> linarith
  constructor
  · intro h
    have hsame := congrArg rank h
    rw [correctlyRounded, rank_ofRank _ (nearestTo_le_infinity _),
      rank_ofRank _ (nearestTo_le_infinity _)] at hsame
    exact nearestTo_roundFigures_inj hn hn' hrange.1 hrange.2 (le_trans (by norm_num) hleast)
      (hbound.trans (by norm_num)) hsame.symm
  · intro h
    rw [correctlyRounded, h]

/-- **How a double is rounded as a decimal.**  It is taken to a decimal that differs from it by less
than one in the 28th place, or by two parts in `10 ^ 15` at most.  That decimal is rounded exactly,
a half away from zero, and what comes out is a double that is near to it: the nearest one if there
are fifteen figures and 22 places at most, or no places.  So with fifteen figures and 22 places it
is `v` correctly rounded exactly if `v` and its decimal are rounded to the same number. -/
theorem asDecimal?_rounded {v r : Float} (hv : v.isFinite) (hn : n ≠ 0) (hn' : n ≤ 16)
    (hr : asDecimal? v n = some r) :
    ∃ d : Fixed, Fixed.ofMagnitude? (rank v) = some d ∧
      |d.value - magnitude (rank v)| ≤
        max (24 / 25 / 10 ^ 28) (magnitude (rank v) / (5 * 10 ^ 14)) ∧
      (d.coefficient = 0 → r = 0) ∧
      (d.coefficient ≠ 0 →
        (∃ k < infinity, r = ofRank (isNegative v) k ∧
          |magnitude k - roundFigures n d.value| ≤ roundFigures n d.value / 2 ^ 48) ∧
        (n ≤ 15 ∧ n ≤ Int.log 10 d.value + 23 ∨ n ≤ Int.log 10 d.value + 1 →
          r = ofRank (isNegative v) (nearestTo (roundFigures n d.value))) ∧
        (n ≤ 15 → n ≤ Int.log 10 d.value + 23 →
          (r = correctlyRounded v n ↔
            roundFigures n (magnitude (rank v)) = roundFigures n d.value))) := by
  rw [asDecimal?] at hr
  obtain ⟨d, hd, hr⟩ := Option.bind_eq_some_iff.mp hr
  obtain ⟨hplaces, hdist⟩ := Fixed.dist_ofMagnitude? ((isFinite_iff v).mp hv) hd
  refine ⟨d, hd, hdist, fun h0 => ?_, fun h0 => ?_⟩
  · rw [if_pos h0] at hr
    exact (Option.some.inj hr).symm
  · rw [if_neg h0] at hr
    obtain ⟨g, hg, hr⟩ := Option.bind_eq_some_iff.mp hr
    obtain ⟨k, hk, hfloat, hnear, hbound, hexact⟩ := toFloat_round? h0 hplaces hn hn' hg
    obtain ⟨hdown, -⟩ := roundFigures_bounds (value_pos h0) hn
    have hr : r = ofRank (isNegative v) k := by
      rw [hfloat, rank_ofRank false hk.le] at hr
      exact (Option.some.inj hr).symm
    refine ⟨⟨k, hk, hr, ?_⟩, fun hfew => hexact hfew ▸ hr, fun hn15 hfew => ?_⟩
    · rw [div_eq_inv_mul, ← one_div]
      have hpos := value_pos h0
      exact hnear.abs_sub_le (by norm_num [kept]) (by norm_num) (by linarith)
    · rw [hr, hexact (.inl ⟨hn15, hfew⟩)]
      exact correctlyRounded_iff hn hn15 h0 hplaces (by linarith) hdist

/-- A half is rounded away from zero, and 2.5 is the double for the decimal that it is. -/
theorem asDecimal?_rounded_half :
    let v := ofRank false 0x4004000000000000
    let three := ofRank false 0x4008000000000000
    v.isFinite ∧ asDecimal? v 1 = some three ∧ three = correctlyRounded v 1 := by
  intro v three
  have hrank : rank v = 0x4004000000000000 := rank_ofRank false (by decide)
  have hfin : v.isFinite := (isFinite_iff v).mpr (hrank ▸ by decide)
  have hr : asDecimal? v 1 = some three := by decide +kernel
  obtain ⟨d, hd, -, -, h⟩ := asDecimal?_rounded hfin (by decide) (by decide) hr
  have hdecimal : Fixed.ofMagnitude? (rank v) = some ⟨25, 1⟩ := by decide +kernel
  obtain rfl : d = ⟨25, 1⟩ := Option.some.inj (hd.symm.trans hdecimal)
  have hvalue : Fixed.value ⟨25, 1⟩ = 5 / 2 := by norm_num [Fixed.value]
  have hmagnitude : magnitude (rank v) = 5 / 2 := by
    have hmantissa : mantissa 0x4004000000000000 = 5629499534213120 := by decide
    have hscale : scale 0x4004000000000000 = 1023 := by decide
    rw [hrank, magnitude_eq, hmantissa, hscale]
    norm_num
  have hlog : Int.log 10 (5 / 2 : ℚ) = 0 := log_eq (by norm_num) (by norm_num)
  refine ⟨hfin, hr, ((h (by decide)).2.2 (by decide) ?_).mpr ?_⟩
  · rw [hvalue, hlog]
    decide
  · rw [hvalue, hmagnitude]

/-- `10 ^ (-12)`, as near as a double comes, is `10 ^ (-12)` to twelve figures; but with its 23
places that goes back to the double after the nearest one. -/
theorem asDecimal?_rounded_places :
    let v := ofRank false 0x3d719799812dea11
    let next := ofRank false 0x3d719799812dea12
    v.isFinite ∧ asDecimal? v 12 = some next ∧ correctlyRounded v 12 = v ∧ next ≠ v := by
  intro v next
  have hrank : rank v = 0x3d719799812dea11 := rank_ofRank false (by decide)
  have hfin : v.isFinite := (isFinite_iff v).mpr (hrank ▸ by decide)
  have hsign : isNegative v = false := isNegative_ofRank false (by decide)
  have hmagnitude : magnitude 0x3d719799812dea11 = 4951760157141521 / 2 ^ 92 := by
    have hmantissa : mantissa 0x3d719799812dea11 = 4951760157141521 := by decide
    have hscale : scale 0x3d719799812dea11 = 982 := by decide
    rw [magnitude_eq, hmantissa, hscale]
    norm_num
  have hlog : Int.log 10 (4951760157141521 / 2 ^ 92 : ℚ) = -13 :=
    log_eq (by norm_num) (by norm_num)
  have hround : roundFigures 12 (4951760157141521 / 2 ^ 92) = (1 : Nat) / (10 ^ 12 : Nat) := by
    have hfloor : ⌊(4951760157141521 / 2 ^ 92 : ℚ) / 10 ^ (-24 : Int) + 1 / 2⌋₊ = 10 ^ 12 :=
      (Nat.floor_eq_iff (by positivity)).mpr ⟨by norm_num, by norm_num⟩
    have hunit : (-13 : Int) + 1 - (12 : Nat) = -24 := by norm_num
    rw [roundFigures, hlog, hunit, hfloor]
    norm_num
  have hnearest : nearest (1 * unitsOfOne) (10 ^ 12) = 0x3d719799812dea11 := by decide +kernel
  refine ⟨hfin, by decide +kernel, ?_, fun h => ?_⟩
  · rw [correctlyRounded, hrank, hsign, hmagnitude, hround, nearestTo_div 1 (by decide), hnearest]
  · have hsame := congrArg rank h
    rw [hrank, rank_ofRank false (by decide)] at hsame
    exact absurd hsame (by decide)

end InfixArith.Rounding
