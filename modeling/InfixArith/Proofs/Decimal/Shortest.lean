import InfixArith.Decimal.Shortest
import InfixArith.Proofs.Binary64.Nearest

/-!
# Decimal — the shortest decimal reads back

Whatever grid the search for the shortest decimal of a finite magnitude ends on, the decimal found
is rounded back to that magnitude (`ofDecimal_shortest`): on a grid because this is what is looked
for, and at the end of the search because the magnitude is then written in full.
-/

namespace InfixArith.Decimal

open Binary64 (units unitsOfOne infinity ofDecimal ofDecimal_eq_nearest nearest_mul nearest_units)

theorem nearer_mem (tie : Tie) (g r d : Nat) : nearer tie g r d = g ∨ nearer tie g r d = g + 1 := by
  unfold nearer
  split
  · exact .inl rfl
  · split
    · exact .inr rfl
    · cases tie with
      | up => exact .inr rfl
      | toEven =>
          dsimp only
          omega

theorem ofDecimal_onGrid? {tie : Tie} {k g : Nat} {x : Int} (h : onGrid? tie k x = some g) :
    ofDecimal g x = k := by
  unfold onGrid? at h
  dsimp only at h
  split at h
  · next hlo hhi =>
    cases h
    rcases nearer_mem tie ((onGrid k x).1 / (onGrid k x).2)
      ((onGrid k x).1 % (onGrid k x).2) (onGrid k x).2 with hg | hg
    · rw [hg]
      exact of_decide_eq_true hlo
    · rw [hg]
      exact of_decide_eq_true hhi
  · next hlo _ =>
    cases h
    exact of_decide_eq_true hlo
  · next _ hhi =>
    cases h
    exact of_decide_eq_true hhi
  · cases h

/-- On the grid of the least magnitude every magnitude is written in full. -/
theorem ofDecimal_full {k u : Nat} (hk : k < infinity) (hu : unitsOfOne = 2 ^ u) :
    ofDecimal (units k * 5 ^ u) (-u) = k := by
  have hnum : units k * 5 ^ u * 10 ^ (-(u : Int)).toNat * unitsOfOne = units k * 10 ^ u := by
    rw [Int.toNat_neg_natCast, Nat.pow_zero, Nat.mul_one, hu, Nat.mul_assoc, ← Nat.mul_pow]
  have hden : 10 ^ (- -(u : Int)).toNat = 1 * 10 ^ u := by
    rw [Int.neg_neg, Int.toNat_natCast, Nat.one_mul]
  rw [ofDecimal_eq_nearest, hnum, hden, nearest_mul _ _ (Nat.pow_pos (by decide)), nearest_units hk]

/-- At the end of the search the magnitude is written in full. -/
theorem firstOnGrid_zero {u : Nat} (hu : u = 1074) (tie : Tie) (k : Nat) (x : Int) :
    firstOnGrid tie k 0 x = ⟨units k * 5 ^ u, -u⟩ := by
  have hexponent : (-1074 : Int) = -(u : Nat) := by omega
  rw [firstOnGrid, ← hu, hexponent, Nat.pow_eq]

theorem ofDecimal_firstOnGrid {tie : Tie} {k : Nat} (hk : k < infinity) (steps : Nat) (x : Int) :
    ofDecimal (firstOnGrid tie k steps x).digits (firstOnGrid tie k steps x).exponent = k := by
  induction steps generalizing x with
  | zero =>
      -- the exponent is kept apart from its power
      obtain ⟨u, hu⟩ : ∃ u, u = 1074 := ⟨_, rfl⟩
      rw [firstOnGrid_zero hu]
      exact ofDecimal_full hk (Binary64.unitsOfOne_eq_pow hu)
  | succ steps ih =>
      unfold firstOnGrid
      split
      · next hg => exact ofDecimal_onGrid? hg
      · exact ih (x - 1)

/-- **The shortest decimal of a finite magnitude reads back as that magnitude.** -/
theorem ofDecimal_shortest {tie : Tie} {k : Nat} (hk : k < infinity) :
    ofDecimal (shortest tie k).digits (shortest tie k).exponent = k :=
  ofDecimal_firstOnGrid hk _ _

end InfixArith.Decimal
