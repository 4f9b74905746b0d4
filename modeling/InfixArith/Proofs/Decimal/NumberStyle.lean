import InfixArith.Decimal.NumberStyle
import InfixArith.Proofs.Binary64.Bits
import InfixArith.Proofs.Decimal.Shortest
import InfixArith.Proofs.Numeral.Scan

/-!
# Decimal — the text of a double is a numeral

In every style the text of a finite double is a well-formed numeral with that double for its value
(`exists_numeral`).  The styles place the point and the exponent differently and fill up with zeros
differently, but always write the digits of the shortest decimal (`Writes`).
-/

namespace InfixArith

theorem digits_toDigits (n : Nat) : Digits (Nat.toDigits 10 n) :=
  fun _ hc => Nat.isDigit_of_mem_toDigits (by decide) (by decide) hc

theorem toDigits_ne_nil (n : Nat) : Nat.toDigits 10 n ≠ [] :=
  List.ne_nil_of_length_pos Nat.length_toDigits_pos

theorem digits_zeros (n : Nat) : Digits (List.replicate n '0') := by
  intro c hc
  rw [List.eq_of_mem_replicate hc]
  rfl

theorem digits_append {s t : List Char} : Digits (s ++ t) ↔ Digits s ∧ Digits t :=
  List.forall_mem_append

namespace NumberStyle

open Binary64 (ofDecimal ofDecimal_mul_pow ofRank ofRank_rank view_of_isFinite rank)

/-- The numeral `n` has no sign, and the digits of `d` between zeros; the zeros after them are made
up for by the scale. -/
structure Writes (n : Numeral) (d : Decimal) : Prop where
  sign_eq : n.sign = none
  digits_eq : ∃ i j : Nat,
    n.whole ++ n.fraction.getD [] =
        List.replicate i '0' ++ (Nat.toDigits 10 d.digits ++ List.replicate j '0') ∧
      n.scale = d.exponent - j
  exponent : ∀ x ∈ n.exponent, x.WellFormed

namespace Writes

variable {n : Numeral} {d : Decimal}

theorem wellFormed (h : Writes n d) : n.WellFormed := by
  obtain ⟨i, j, hdigits, -⟩ := h.digits_eq
  have hall : Digits (n.whole ++ n.fraction.getD []) := by
    rw [hdigits]
    exact digits_append.mpr ⟨digits_zeros i,
      digits_append.mpr ⟨digits_toDigits d.digits, digits_zeros j⟩⟩
  have hne : n.whole ++ n.fraction.getD [] ≠ [] := by
    rw [hdigits]
    exact List.append_ne_nil_of_right_ne_nil _
      (List.append_ne_nil_of_left_ne_nil (toDigits_ne_nil d.digits) _)
  obtain ⟨hw, hf⟩ := digits_append.mp hall
  cases hfrac : n.fraction with
  | none =>
      refine ⟨hw, fun f hx => ?_, .inl ?_, h.exponent⟩
      · rw [hfrac] at hx
        cases hx
      · simpa [hfrac] using hne
  | some f =>
      rw [hfrac] at hf hne
      refine ⟨hw, fun g hg => ?_, ?_, h.exponent⟩
      · rw [hfrac] at hg
        cases hg
        exact hf
      · by_cases hnil : n.whole = []
        · exact .inr ⟨f, hfrac, by simpa [hnil] using hne⟩
        · exact .inl hnil

theorem ofDecimal_eq (h : Writes n d) :
    ofDecimal n.coefficient n.scale = ofDecimal d.digits d.exponent := by
  obtain ⟨i, j, hdigits, hscale⟩ := h.digits_eq
  have hcoeff : n.coefficient = d.digits * 10 ^ j := by
    rw [Numeral.coefficient, hdigits, Nat.ofDigitChars_append, Nat.ofDigitChars_append,
      Nat.ofDigitChars_replicate_zero, Nat.ofDigitChars_replicate_zero, Nat.mul_zero,
      Nat.ofDigitChars_ten_toDigits, Nat.mul_comm]
  rw [hcoeff, hscale, ofDecimal_mul_pow, Int.sub_add_cancel]

end Writes

/-- Digits written positionally are a numeral. -/
theorem exists_positional {d : Decimal} {ds : List Char} {point : Int}
    (hds : ds = Nat.toDigits 10 d.digits) (hpoint : point = d.exponent + ds.length) :
    ∃ n : Numeral, n.text = positional ds point ∧ Writes n d := by
  unfold positional
  split
  · -- zeros before the digits
    refine ⟨⟨none, ['0'], some (List.replicate (-point).toNat '0' ++ ds), none⟩, ?_, rfl, ?_, ?_⟩
    · simp [Numeral.text, Numeral.fractionText, Sign.text, Exponent.text]
    · refine ⟨(-point).toNat + 1, 0, by simp [hds, List.replicate_succ], ?_⟩
      simp only [Numeral.scale, Exponent.value, Option.getD_some, List.length_append,
        List.length_replicate]
      omega
    · rintro x ⟨⟩
  · split
    · -- zeros after the digits
      refine ⟨⟨none, ds ++ List.replicate (point.toNat - ds.length) '0', some ['0'], none⟩,
        ?_, rfl, ?_, ?_⟩
      · simp [Numeral.text, Numeral.fractionText, Sign.text, Exponent.text]
      · refine ⟨0, point.toNat - ds.length + 1, by simp [hds, List.replicate_succ'], ?_⟩
        simp only [Numeral.scale, Exponent.value, Option.getD_some, List.length_singleton]
        omega
      · rintro x ⟨⟩
    · -- the point among the digits
      refine ⟨⟨none, ds.take point.toNat, some (ds.drop point.toNat), none⟩, ?_, rfl, ?_, ?_⟩
      · simp [Numeral.text, Numeral.fractionText, Sign.text, Exponent.text]
      · refine ⟨0, 0, by simp [hds], ?_⟩
        simp only [Numeral.scale, Exponent.value, Option.getD_some, List.length_drop]
        omega
      · rintro x ⟨⟩

/-- The exponent of the first digit, as the style writes it. -/
def exponentOf (style : NumberStyle) (x : Int) : Exponent :=
  ⟨'e', if x < 0 then some .minus else if style.plusInExponent then some .plus else none,
    Nat.toDigits 10 x.natAbs⟩

theorem exponentOf_wellFormed (style : NumberStyle) (x : Int) : (exponentOf style x).WellFormed :=
  ⟨.inl rfl, toDigits_ne_nil _, digits_toDigits _⟩

theorem exponentOf_value (style : NumberStyle) (x : Int) :
    Exponent.value (some (exponentOf style x)) = x := by
  simp only [Exponent.value, exponentOf, Nat.ofDigitChars_ten_toDigits]
  by_cases hx : x < 0
  · rw [if_pos hx, if_pos rfl]
    omega
  · rw [if_neg hx, if_neg (by split <;> simp)]
    omega

theorem exponentOf_text (style : NumberStyle) (x : Int) :
    Exponent.text (some (exponentOf style x)) =
      'e' :: ((if x < 0 then ['-'] else if style.plusInExponent then ['+'] else []) ++
        Nat.toDigits 10 x.natAbs) := by
  simp only [Exponent.text, exponentOf]
  split
  · rfl
  · split <;> rfl

/-- Digits written with an exponent are a numeral. -/
theorem exists_scientific (style : NumberStyle) {d : Decimal} {ds : List Char} {x : Int}
    (hds : ds = Nat.toDigits 10 d.digits) (hx : x = d.exponent + ds.length - 1) :
    ∃ n : Numeral, n.text = scientific style ds x ∧ Writes n d := by
  have hpos : 0 < ds.length := hds ▸ Nat.length_toDigits_pos
  have hexp : ∀ y ∈ some (exponentOf style x), y.WellFormed := by
    rintro y ⟨rfl⟩
    exact exponentOf_wellFormed style x
  unfold scientific
  dsimp only
  split
  · next hdrop =>
    -- a single digit, with or without a point and a zero after it
    have hone : ds.take 1 = ds := by
      simpa [hdrop] using List.take_append_drop 1 ds
    have hlen : ds.length = 1 := by
      have := congrArg List.length hdrop
      rw [List.length_drop, List.length_nil] at this
      omega
    by_cases hp : style.pointBeforeExponent = true
    · refine ⟨⟨none, ds.take 1, some ['0'], some (exponentOf style x)⟩, ?_, rfl, ?_, hexp⟩
      · simp [Numeral.text, Numeral.fractionText, Sign.text, exponentOf_text, hp]
      · refine ⟨0, 1, by simp [hone, ← hds], ?_⟩
        simp only [Numeral.scale, exponentOf_value, Option.getD_some, List.length_singleton]
        omega
    · refine ⟨⟨none, ds.take 1, none, some (exponentOf style x)⟩, ?_, rfl, ?_, hexp⟩
      · simp [Numeral.text, Numeral.fractionText, Sign.text, exponentOf_text, hp]
      · refine ⟨0, 0, by simp [hone, ← hds], ?_⟩
        simp only [Numeral.scale, exponentOf_value, Option.getD_none, List.length_nil]
        omega
  · refine ⟨⟨none, ds.take 1, some (ds.drop 1), some (exponentOf style x)⟩, ?_, rfl, ?_, hexp⟩
    · simp [Numeral.text, Numeral.fractionText, Sign.text, exponentOf_text]
    · refine ⟨0, 0, by simp [← hds, -List.drop_one], ?_⟩
      simp only [Numeral.scale, exponentOf_value, Option.getD_some, List.length_drop]
      omega

/-- A decimal in any style is a numeral. -/
theorem exists_decimalText (style : NumberStyle) (d : Decimal) :
    ∃ n : Numeral, n.text = decimalText style d ∧ Writes n d := by
  unfold decimalText
  dsimp only
  split
  · exact exists_positional rfl (by omega)
  · exact exists_scientific style rfl rfl

/-- The text of a finite magnitude is a numeral without a sign that is rounded to it. -/
theorem exists_magnitudeText (style : NumberStyle) {k : Nat} (hk : k < Binary64.infinity) :
    ∃ n : Numeral, n.WellFormed ∧ n.text = magnitudeText style k ∧ n.sign = none ∧
      ofDecimal n.coefficient n.scale = k := by
  unfold magnitudeText
  split
  · next h0 =>
    refine ⟨⟨none, ['0'], some ['0'], none⟩, ⟨digits_zeros 1, ?_, .inl (List.cons_ne_nil _ _), ?_⟩,
      rfl, rfl, ?_⟩
    · rintro f ⟨rfl⟩
      exact digits_zeros 1
    · rintro x ⟨⟩
    · rw [h0]
      exact Binary64.ofDecimal_zero _
  · obtain ⟨n, htext, hn⟩ := exists_decimalText style (Decimal.shortest style.tie k)
    exact ⟨n, hn.wellFormed, htext, hn.sign_eq,
      hn.ofDecimal_eq.trans (Decimal.ofDecimal_shortest hk)⟩

/-- **The text of a finite double reads back.**  In every style it is a numeral whose value is the
double, bit for bit. -/
theorem exists_numeral (style : NumberStyle) {v : Float} (hv : v.isFinite) :
    ∃ n : Numeral, n.WellFormed ∧ n.text = style.text v ∧ n.value = v := by
  obtain ⟨hview, hk⟩ := view_of_isFinite hv
  obtain ⟨n, hn, htext, hsign, hval⟩ := exists_magnitudeText style hk
  have hround := ofRank_rank v
  rw [text, hview]
  dsimp only
  cases hneg : Binary64.isNegative v with
  | false =>
      refine ⟨n, hn, htext, ?_⟩
      rw [hneg] at hround
      simpa [Numeral.value, hval, hsign] using hround
  | true =>
      refine ⟨{ n with sign := some .minus }, ⟨hn.whole, hn.fraction, hn.has_digit, hn.exponent⟩,
        ?_, ?_⟩
      · rw [if_pos rfl, ← htext]
        simp [Numeral.text, hsign, Sign.text]
      · rw [hneg] at hround
        simpa [Numeral.value, Numeral.coefficient, Numeral.scale] using
          (congrArg (ofRank true) hval).trans hround

end NumberStyle

end InfixArith
