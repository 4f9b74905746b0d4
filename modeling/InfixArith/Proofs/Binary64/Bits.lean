import InfixArith.Binary64
import Mathlib

/-!
# Binary64 — bit patterns

A double is its bit pattern, so it is given back by its sign and the number of its magnitude.  The
pattern falls into a sign bit, eleven bits of exponent and fifty-two bits of mantissa; unpacking it
to a mantissa with an exponent and packing that again changes nothing (`pack_unpack`).

* `ofRank_rank`: a double is the one with its sign and its magnitude.
* `isFinite_iff`: the finite doubles are those whose magnitude has a number below `infinity`.
* `view_injective`: what a double stands for determines it; there is one that is no number.
-/

namespace InfixArith.Binary64

open Float.Model (Format)
open Float.Model.UnpackedFloat

variable {b : BitVec Format.binary64.numBits}

/-! ### The fields of a bit pattern -/

theorem toNat_unpackExponent (b : BitVec Format.binary64.numBits) :
    (unpackExponent b).toNat = b.toNat / 2 ^ 52 % 2 ^ 11 := by
  simp [unpackExponent, BitVec.extractLsb_toNat, Nat.shiftRight_eq_div_pow]

theorem toNat_unpackMantissa (b : BitVec Format.binary64.numBits) :
    (unpackMantissa b).toNat = b.toNat % 2 ^ 52 := by
  simp [unpackMantissa, BitVec.extractLsb_toNat]

theorem toNat_unpackSign (b : BitVec Format.binary64.numBits) :
    (unpackSign b).toNat = b.toNat / 2 ^ 63 % 2 := by
  simp [unpackSign, BitVec.extractLsb_toNat, Nat.shiftRight_eq_div_pow]

theorem toBitVec_ofBitVec_sign (s : BitVec 1) : (Sign.ofBitVec s).toBitVec = s := by
  revert s
  decide

/-- A bit pattern is made up of its three fields. -/
theorem packComponents_fields (b : BitVec Format.binary64.numBits) :
    packComponents .binary64 (Sign.ofBitVec (unpackSign b)) (unpackExponent b) (unpackMantissa b) =
      b := by
  rw [packComponents, toBitVec_ofBitVec_sign]
  apply BitVec.eq_of_toNat_eq
  have hb : b.toNat < 2 ^ 64 := b.isLt
  simp only [unpackSign, unpackExponent, unpackMantissa, BitVec.toNat_append, BitVec.toNat_cast,
    BitVec.extractLsb_toNat, Nat.shiftRight_eq_div_pow]
  rw [← Nat.shiftLeft_add_eq_or_of_lt (Nat.mod_lt _ (by decide)),
    ← Nat.shiftLeft_add_eq_or_of_lt (Nat.mod_lt _ (by decide)), Nat.shiftLeft_eq, Nat.shiftLeft_eq]
  norm_num only
  omega

/-- Packing a mantissa without its leading bit: an exponent of zero. -/
theorem pack_subnormal {m : BitVec 52} (s : Float.Model.UnpackedFloat.Sign) (h : 0 < m.toNat) :
    pack .binary64 (.finite s m.toNat (-1074) h) = packComponents .binary64 s 0#11 m := by
  have hlog : m.toNat.log2 < 52 := (Nat.log2_lt h.ne').mpr m.isLt
  have hbits : m.toNat.log2 + 1 ≠ Format.mantissaBits .binary64 := by
    simp only [Format.mantissaBits]
    omega
  simp [pack, hbits, Format.exponentBias]

/-- Packing a mantissa with its leading bit under the exponent field `x`. -/
theorem pack_normal {x : BitVec 11} {m : BitVec 52} (s : Float.Model.UnpackedFloat.Sign) (hx : x ≠ -1#11)
    (h : 0 < (1#1 ++ m).toNat) :
    pack .binary64 (.finite s (1#1 ++ m).toNat ((x.toNat : Int) - 1075) h) =
      packComponents .binary64 s x m := by
  have hx' : x.toNat ≠ 2047 := fun h => hx (BitVec.eq_of_toNat_eq (by simpa using h))
  have hm : (1#1 ++ m).toNat = 2 ^ 52 + m.toNat := by
    rw [BitVec.toNat_append, ← Nat.shiftLeft_add_eq_or_of_lt m.isLt, Nat.shiftLeft_eq]
    simp
  -- the leading bit stands where the format has it, so nothing is shifted
  have hlog : (2 ^ 52 + m.toNat).log2 = 52 :=
    (Nat.log2_eq_iff (by omega)).mpr ⟨by omega, by have := m.isLt; omega⟩
  have hbias : ((x.toNat : Int) - 1075 + (2 ^ (11 - 1) - 1 : Nat) + (52 : Nat)).toNat = x.toNat := by
    norm_num
    omega
  have hlt : ¬ 2 ^ 11 ≤ x.toNat + 1 := by have := x.isLt; omega
  have hbits : Format.mantissaBits .binary64 = 53 := rfl
  have hm' : BitVec.ofNat 52 (2 ^ 52 + m.toNat) = m := by
    apply BitVec.eq_of_toNat_eq
    rw [BitVec.toNat_ofNat, Nat.add_mod_left, Nat.mod_eq_of_lt m.isLt]
  simp only [pack, Format.exponentBias, hm, hlog, hbits, hbias, hm', if_neg hlt, if_true]
  rw [BitVec.ofNat_toNat, BitVec.setWidth_eq]

/-- Unpacking a bit pattern and packing it again changes nothing. -/
theorem pack_unpack (h : Format.binary64.Valid b) : pack .binary64 (unpack .binary64 b) = b := by
  have hf := packComponents_fields b
  unfold unpack
  dsimp only
  split
  · next hx =>
    -- under a full exponent stand the infinities and one pattern that is no number
    split
    · next hm => rwa [hx, hm] at hf
    · next hm => exact (h.eq_packedNaN hx hm).symm
  · next hx =>
    split
    · next h0 =>
      rw [h0] at hf
      split
      · next hm => rwa [hm] at hf
      · next hm =>
        rw [h0]
        exact (pack_subnormal _ _).trans hf
    · next h0 => exact (pack_normal _ hx _).trans hf

/-! ### Doubles -/

theorem ofBits_toBits (v : Float) : Float.ofBits v.toBits = v := by
  obtain ⟨⟨bits, valid⟩⟩ := v
  have h : UInt64.ofBitVec (pack .binary64 (unpack .binary64 bits.toBitVec)) = bits := by
    rw [pack_unpack valid, UInt64.ofBitVec_toBitVec]
  simp only [Float.ofBits, Float.toBits, Float.Model.ofBits, Float.Model.pack, h]

/-- A double is given by its sign and the number of its magnitude. -/
theorem ofRank_rank (v : Float) : ofRank (isNegative v) (rank v) = v := by
  have hlt : v.toBits.toNat < 2 ^ 64 := v.toBits.toNat_lt
  have hbits : (if isNegative v then signBit + rank v else rank v) = v.toBits.toNat := by
    unfold isNegative rank signBit
    split
    · next h =>
      have h := of_decide_eq_true h
      omega
    · next h =>
      have h := of_decide_eq_false (Bool.eq_false_iff.mpr h)
      omega
  rw [ofRank, hbits, UInt64.ofNat_toNat, ofBits_toBits]

/-- The pattern of a double that is a number. -/
theorem toNat_toBits_ofRank (negative : Bool) {k : Nat} (hk : k ≤ infinity) :
    (ofRank negative k).toBits.toNat = if negative then signBit + k else k := by
  obtain ⟨b, hb⟩ : ∃ b, b = if negative then signBit + k else k := ⟨_, rfl⟩
  have hlt : b < 2 ^ 64 := by
    unfold signBit infinity at *
    split at hb <;> omega
  have hnat : (UInt64.ofNat b).toNat = b := by
    rw [UInt64.toNat_ofNat', Nat.mod_eq_of_lt hlt]
  have hvalid : Format.binary64.Valid (UInt64.ofNat b).toBitVec := by
    refine ⟨fun hexponent hmantissa => absurd ?_ hmantissa⟩
    have hx := toNat_unpackExponent (UInt64.ofNat b).toBitVec
    have hm := toNat_unpackMantissa (UInt64.ofNat b).toBitVec
    have hfull : (-1#11).toNat = 2047 := rfl
    rw [hexponent, hfull, UInt64.toNat_toBitVec, hnat] at hx
    rw [UInt64.toNat_toBitVec, hnat] at hm
    apply BitVec.eq_of_toNat_eq
    rw [hm]
    have hzero : (0#52).toNat = 0 := rfl
    rw [hzero]
    unfold signBit infinity at *
    split at hb <;> omega
  have hbits : (Float.ofBits (UInt64.ofNat b)).toBits = UInt64.ofNat b := by
    simp only [Float.ofBits, Float.toBits, Float.Model.ofBits, Float.Model.pack]
    rw [pack_unpack hvalid, UInt64.ofBitVec_toBitVec]
  rw [ofRank, ← hb, hbits, hnat]

theorem rank_ofRank (negative : Bool) {k : Nat} (hk : k ≤ infinity) :
    rank (ofRank negative k) = k := by
  rw [rank, toNat_toBits_ofRank negative hk]
  unfold infinity at hk
  unfold signBit
  split <;> omega

theorem isNegative_ofRank (negative : Bool) {k : Nat} (hk : k ≤ infinity) :
    isNegative (ofRank negative k) = negative := by
  rw [isNegative, toNat_toBits_ofRank negative hk]
  unfold infinity at hk
  cases negative with
  | false => exact decide_eq_false (by unfold signBit; simp; omega)
  | true => exact decide_eq_true (by simp)

theorem isFinite_unpack (b : BitVec Format.binary64.numBits) :
    (unpack .binary64 b).isFinite ↔ unpackExponent b ≠ -1#11 := by
  unfold unpack
  dsimp only
  split
  · next hx =>
    refine iff_of_false ?_ fun h => h hx
    split <;> exact Bool.false_ne_true
  · next hx =>
    refine iff_of_true ?_ hx
    split
    · split <;> rfl
    · rfl

/-- The finite doubles are those with a finite magnitude. -/
theorem isFinite_iff (v : Float) : v.isFinite ↔ rank v < infinity := by
  have hlt : v.toBits.toNat < 2 ^ 64 := v.toBits.toNat_lt
  have hx : (@unpackExponent .binary64 v.toBits.toBitVec).toNat =
      v.toBits.toNat / 2 ^ 52 % 2 ^ 11 := toNat_unpackExponent v.toBits.toBitVec
  have hfull : (-1#11).toNat = 2047 := rfl
  refine (isFinite_unpack v.toBits.toBitVec).trans ?_
  rw [Ne, ← BitVec.toNat_inj, hx, hfull]
  unfold rank signBit infinity
  omega

/-- A finite double is seen as its sign and the number of its magnitude. -/
theorem view_of_isFinite {v : Float} (h : v.isFinite) :
    view v = .finite (isNegative v) (rank v) ∧ rank v < infinity := by
  have hlt := (isFinite_iff v).mp h
  refine ⟨?_, hlt⟩
  rw [view, if_neg (by omega), if_neg (by omega)]

/-- Only finite doubles are viewed as finite. -/
theorem isFinite_of_view {v : Float} {negative : Bool} {k : Nat}
    (h : view v = .finite negative k) : v.isFinite := by
  rw [isFinite_iff]
  unfold view at h
  split at h
  · cases h
  · split at h
    · cases h
    · omega

theorem view_of_not_isFinite {v : Float} (h : ¬ v.isFinite) :
    view v = .notANumber ∨ ∃ negative, view v = .infinite negative := by
  cases hview : view v with
  | notANumber => exact .inl rfl
  | infinite negative => exact .inr ⟨negative, rfl⟩
  | finite negative k => exact absurd (isFinite_of_view hview) h

/-- There is one bit pattern that is no number. -/
theorem toBits_eq_packedNaN {v : Float} (h : infinity < rank v) :
    v.toBits.toBitVec = packedNaN .binary64 := by
  obtain ⟨⟨bits, valid⟩⟩ := v
  have hlt : bits.toNat < 2 ^ 64 := bits.toNat_lt
  have hrank : infinity < bits.toNat % signBit := h
  have hx : (@unpackExponent .binary64 bits.toBitVec).toNat = bits.toNat / 2 ^ 52 % 2 ^ 11 :=
    toNat_unpackExponent bits.toBitVec
  unfold infinity signBit at hrank
  refine valid.eq_packedNaN ?_ ?_
  · rw [← BitVec.toNat_inj, hx]
    have hfull : (-1#11).toNat = 2047 := rfl
    rw [hfull]
    omega
  · intro hm
    have hmantissa : (@unpackMantissa .binary64 bits.toBitVec).toNat = bits.toNat % 2 ^ 52 := by
      simp [unpackMantissa, BitVec.extractLsb_toNat]
    rw [hm] at hmantissa
    have hzero : (0#52).toNat = 0 := rfl
    rw [hzero] at hmantissa
    omega

theorem view_eq_notANumber_iff {v : Float} : view v = .notANumber ↔ infinity < rank v := by
  unfold view
  split
  · next h => exact iff_of_true rfl h
  · next h =>
    refine iff_of_false ?_ h
    split <;> exact nofun

/-- What a double stands for determines it. -/
theorem view_injective : Function.Injective view := by
  intro v w h
  by_cases hv : infinity < rank v
  · have hw : infinity < rank w :=
      view_eq_notANumber_iff.mp (h.symm.trans (view_eq_notANumber_iff.mpr hv))
    have hbits : v.toBits = w.toBits :=
      UInt64.toBitVec_inj.mp ((toBits_eq_packedNaN hv).trans (toBits_eq_packedNaN hw).symm)
    rw [← ofBits_toBits v, hbits, ofBits_toBits]
  · have hw : ¬ infinity < rank w := fun hw =>
      hv (view_eq_notANumber_iff.mp (h.trans (view_eq_notANumber_iff.mpr hw)))
    have hsame : isNegative v = isNegative w ∧ rank v = rank w := by
      rw [view, view, if_neg hv, if_neg hw] at h
      split at h
      · next hrank =>
        split at h
        · next hrank' =>
          injection h with hsign
          exact ⟨hsign, hrank.trans hrank'.symm⟩
        · cases h
      · split at h
        · cases h
        · injection h with hsign hrank
          exact ⟨hsign, hrank⟩
    rw [← ofRank_rank v, hsame.1, hsame.2, ofRank_rank]

end InfixArith.Binary64
