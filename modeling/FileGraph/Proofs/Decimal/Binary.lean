import FileGraph.Proofs.Decimal.Numeral
import FileGraph.Proofs.Weight
/-!
# Binary — the parts of a number are its value

The integers that are taken from the bits of a float are sign, significand and exponent of its value (`parts_eq`).  A
positive number that is not infinite has a canonical significand and exponent (`Positional`), and packing those gives
the number back, unless its exponent is too large (`positional_pack`).
-/
namespace FileGraph.Decimal

open Float.Model (Format UnpackedFloat)
open Float.Model.UnpackedFloat
open Weight (Positive)

/-! ## Fields of the bits -/

section Fields

variable (b : BitVec 64)

theorem toNat_unpackMantissa : (@unpackMantissa Format.binary64 b).toNat = b.toNat % 2 ^ 52 := by
  unfold unpackMantissa
  rw [BitVec.toNat_cast, BitVec.extractLsb_toNat, Nat.shiftRight_zero]
  rfl

theorem toNat_unpackExponent : (@unpackExponent Format.binary64 b).toNat = b.toNat / 2 ^ 52 % 2048 := by
  unfold unpackExponent
  rw [BitVec.toNat_cast, BitVec.extractLsb_toNat, Nat.shiftRight_eq_div_pow]
  rfl

theorem toNat_unpackSign : (@unpackSign Format.binary64 b).toNat = b.toNat / 2 ^ 63 % 2 := by
  unfold unpackSign
  rw [BitVec.toNat_cast, BitVec.extractLsb_toNat, Nat.shiftRight_eq_div_pow]
  rfl

/-- Whether the sign is negative. -/
def isNegative (s : Sign) : Bool :=
  match s with
  | .negative => true
  | .positive => false

theorem isNegative_unpackSign :
    isNegative (Sign.ofBitVec (@unpackSign Format.binary64 b)) = decide (2 ^ 63 ≤ b.toNat) := by
  have hlt := b.isLt
  have hsign := toNat_unpackSign b
  unfold Sign.ofBitVec
  split
  · rename_i h
    rw [h, BitVec.toNat_ofNat] at hsign
    exact (decide_eq_false (by omega)).symm
  · rename_i h
    have hne : (@unpackSign Format.binary64 b).toNat ≠ 0 := fun h' => h (BitVec.eq_of_toNat_eq h')
    exact (decide_eq_true (by omega)).symm

theorem toNat_append_one (m : BitVec 52) : (1#1 ++ m).toNat = 2 ^ 52 + m.toNat := by
  rw [BitVec.toNat_append, ← Nat.shiftLeft_add_eq_or_of_lt m.isLt]
  rfl

/-- The parts of a value. -/
def Parts.ofUnpacked : UnpackedFloat → Parts
  | .notANumber => .nan
  | .infinity s => .infinite (isNegative s)
  | .zero s => .finite (isNegative s) 0 (-1074)
  | .finite s m e _ => .finite (isNegative s) m e

theorem ofUnpacked_unpack : Parts.ofUnpacked (unpack Format.binary64 b) =
    if b.toNat / 2 ^ 52 % 2048 = 2047 then
      if b.toNat % 2 ^ 52 = 0 then .infinite (decide (2 ^ 63 ≤ b.toNat)) else .nan
    else if b.toNat / 2 ^ 52 % 2048 = 0 then .finite (decide (2 ^ 63 ≤ b.toNat)) (b.toNat % 2 ^ 52) (-1074)
    else .finite (decide (2 ^ 63 ≤ b.toNat)) (2 ^ 52 + b.toNat % 2 ^ 52)
      (((b.toNat / 2 ^ 52 % 2048 : Nat) : Int) - 1075) := by
  have hmantissa := toNat_unpackMantissa b
  have hexponent := toNat_unpackExponent b
  rw [← isNegative_unpackSign b, ← hmantissa, ← hexponent]
  have hmax : @unpackExponent Format.binary64 b = -1#11 ↔
      (@unpackExponent Format.binary64 b).toNat = 2047 := BitVec.toNat_inj.symm
  have hmin : @unpackExponent Format.binary64 b = 0#11 ↔
      (@unpackExponent Format.binary64 b).toNat = 0 := BitVec.toNat_inj.symm
  have hzero : @unpackMantissa Format.binary64 b = 0#52 ↔
      (@unpackMantissa Format.binary64 b).toNat = 0 := BitVec.toNat_inj.symm
  delta unpack
  dsimp only
  by_cases h₁ : (@unpackExponent Format.binary64 b).toNat = 2047
  · rw [if_pos (hmax.2 h₁), if_pos h₁]
    by_cases h₂ : (@unpackMantissa Format.binary64 b).toNat = 0
    · rw [if_pos (hzero.2 h₂), if_pos h₂]
      rfl
    · rw [if_neg (mt hzero.1 h₂), if_neg h₂]
      rfl
  · rw [if_neg (mt hmax.1 h₁), if_neg h₁]
    by_cases h₃ : (@unpackExponent Format.binary64 b).toNat = 0
    · rw [if_pos (hmin.2 h₃), if_pos h₃]
      by_cases h₂ : (@unpackMantissa Format.binary64 b).toNat = 0
      · rw [dif_pos (hzero.2 h₂), h₂]
        rfl
      · rw [dif_neg (mt hzero.1 h₂), h₃]
        rfl
    · rw [if_neg (mt hmin.1 h₃), if_neg h₃]
      have happend := toNat_append_one (@unpackMantissa Format.binary64 b)
      rw [← happend]
      rfl

end Fields

/-- **The parts of the bits are those of the value.** -/
theorem parts_eq (x : Float) : parts x = Parts.ofUnpacked x.toModel.unpack :=
  (ofUnpacked_unpack x.toModel.toBits.toBitVec).symm

/-! ## Positive numbers -/

theorem positive_of_zero_lt {x : Float} (h : 0.0 < x) : Positive x.toModel.unpack := by
  have hlt : (0.0 : Float).toModel.unpack.lt x.toModel.unpack = true := of_decide_eq_true h
  rw [Weight.unpack_zero] at hlt
  generalize x.toModel.unpack = f at hlt
  cases f with
  | infinity s =>
    cases s with
    | positive => exact .infinite
    | negative => cases hlt
  | notANumber => cases hlt
  | zero s => cases hlt
  | finite s m e hm =>
    cases s with
    | positive => exact .finite m e hm
    | negative => cases hlt

theorem isNaN_of_zero_lt {x : Float} (h : 0.0 < x) : x.isNaN = false := by
  have hpos := positive_of_zero_lt h
  unfold Float.isNaN Float.Model.isNaN
  generalize x.toModel.unpack = f at hpos
  cases hpos <;> rfl

/-- The float is the positive number `m · 2 ^ e`. -/
structure Positional (x : Float) (m : Nat) (e : Int) : Prop where
  canonical : Canonical m e
  unpack    : ∃ h, x.toModel.unpack = .finite .positive m e h

section Positional

variable {x : Float} {m : Nat} {e : Int}

theorem Positional.parts (h : Positional x m e) : parts x = .finite false m e := by
  obtain ⟨-, hm, hunpack⟩ := h
  rw [parts_eq, hunpack]
  rfl

theorem Positional.zero_lt (h : Positional x m e) : 0.0 < x := by
  obtain ⟨-, hm, hunpack⟩ := h
  refine Weight.zero_lt_of_positive ?_
  rw [hunpack]
  exact .finite m e hm

theorem Positional.isInf (h : Positional x m e) : x.isInf = false := by
  obtain ⟨-, hm, hunpack⟩ := h
  unfold Float.isInf Float.Model.isInf
  rw [hunpack]
  rfl

theorem Positional.beq_zero (h : Positional x m e) : (x == 0.0) = false := by
  obtain ⟨-, hm, hunpack⟩ := h
  change x.toModel.unpack.beq (0.0 : Float).toModel.unpack = false
  rw [hunpack, Weight.unpack_zero]
  rfl

/-- A positive number is infinite, or it has a canonical significand and exponent. -/
theorem positional_of_zero_lt (h : 0.0 < x) :
    x.isInf = true ∧ parts x = .infinite false ∨ ∃ m e, Positional x m e := by
  have hpos := positive_of_zero_lt h
  have hparts := parts_eq x
  cases hunpack : x.toModel.unpack with
  | infinity s =>
    rw [hunpack] at hpos hparts
    cases hpos
    left
    refine ⟨?_, hparts⟩
    unfold Float.isInf Float.Model.isInf
    rw [hunpack]
    rfl
  | finite s m e hm =>
    rw [hunpack] at hpos hparts
    cases hpos
    right
    rcases canonical_of_parts hparts with hzero | hcanonical
    · exact absurd hzero (Nat.ne_of_gt hm)
    · exact ⟨m, e, hcanonical, hm, hunpack⟩
  | notANumber =>
    rw [hunpack] at hpos
    cases hpos
  | zero s =>
    rw [hunpack] at hpos
    cases hpos

/-! ## Packing -/

theorem toNat_packComponents (b : BitVec 11) (m : BitVec 52) :
    (packComponents Format.binary64 .positive b m).toNat = b.toNat * 2 ^ 52 + m.toNat := by
  change (((0#1 ++ b : BitVec 12) ++ m : BitVec 64)).toNat = _
  rw [BitVec.toNat_append, ← Nat.shiftLeft_add_eq_or_of_lt m.isLt, BitVec.toNat_append,
    ← Nat.shiftLeft_add_eq_or_of_lt b.isLt, Nat.shiftLeft_eq]
  simp

/-- A value with the parts of a positive number is that number. -/
theorem eq_of_ofUnpacked {f : UnpackedFloat} (hm : 0 < m) (h : Parts.ofUnpacked f = .finite false m e) :
    f = .finite .positive m e hm := by
  cases f with
  | notANumber => cases h
  | infinity s => cases h
  | zero s =>
    obtain ⟨-, rfl, -⟩ := Parts.finite.inj h
    cases hm
  | finite s m' e' hm' =>
    obtain ⟨hs, rfl, rfl⟩ := Parts.finite.inj h
    cases s with
    | positive => rfl
    | negative => cases hs

/-- **A canonical number is packed without loss.** -/
theorem unpack_pack (h : Canonical m e) : unpack Format.binary64 (pack Format.binary64 (.finite .positive m e h.pos)) =
    .finite .positive m e h.pos := by
  have hlow := h.low
  have hhigh := h.high
  have hbits := h.bits
  obtain ⟨b, hb⟩ : ∃ b : Nat, (b : Int) = e + 1075 := ⟨(e + 1075).toNat, by omega⟩
  have hsmall : ¬ 2 ^ 11 ≤ b + 1 := by omega
  refine eq_of_ofUnpacked h.pos ?_
  rw [ofUnpacked_unpack, Weight.pack_positive h.pos hb, if_neg hsmall]
  have hexponent : (BitVec.ofNat 11 b).toNat = b := by
    rw [BitVec.toNat_ofNat]
    exact Nat.mod_eq_of_lt (by omega)
  by_cases hfull : 2 ^ 52 ≤ m
  · have hlog : m.log2 + 1 = 53 := by
      rw [(Nat.log2_eq_iff (Nat.ne_of_gt h.pos)).2 ⟨hfull, hbits⟩]
    have hfields : (packComponents Format.binary64 .positive (BitVec.ofNat 11 b) (BitVec.ofNat 52 m)).toNat =
        b * 2 ^ 52 + (m - 2 ^ 52) := by
      rw [toNat_packComponents, hexponent, BitVec.toNat_ofNat]
      omega
    have hmantissa : 2 ^ 52 + (b * 2 ^ 52 + (m - 2 ^ 52)) % 2 ^ 52 = m := by omega
    have hbiased : (((b * 2 ^ 52 + (m - 2 ^ 52)) / 2 ^ 52 % 2048 : Nat) : Int) - 1075 = e := by omega
    rw [if_pos hlog, hfields, if_neg (by omega), if_neg (by omega), decide_eq_false (by omega), hmantissa, hbiased]
  · have hlog : m.log2 + 1 ≠ 53 := by
      have := (Nat.log2_lt (Nat.ne_of_gt h.pos)).2 (Nat.lt_of_not_le hfull)
      omega
    have he : e = -1074 := h.full.resolve_left hfull
    have hfields : (packComponents Format.binary64 .positive 0#11 (BitVec.ofNat 52 m)).toNat = m := by
      rw [toNat_packComponents, BitVec.toNat_ofNat, BitVec.toNat_ofNat]
      omega
    have hmod : m % 2 ^ 52 = m := Nat.mod_eq_of_lt (Nat.lt_of_not_le hfull)
    rw [if_neg hlog, hfields, if_neg (by omega), if_pos (by omega), decide_eq_false (by omega), hmod, he]

/-- A canonical number that is packed is that number. -/
theorem positional_pack (h : Canonical m e) : Positional (.ofModel (.pack (.finite .positive m e h.pos))) m e :=
  ⟨h, h.pos, unpack_pack h⟩

end Positional

end FileGraph.Decimal
