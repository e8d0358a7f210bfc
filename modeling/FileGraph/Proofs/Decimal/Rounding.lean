import FileGraph.Proofs.Decimal.Binary
/-!
# Rounding — arithmetic to within an ulp

A result of the arithmetic is not compared with the nearest number but only with its neighbours: a significand of more
than 53 bits loses its last bits and may be one too large afterwards, which is a factor of `slack` at most
(`roundWithAccuracy_full`).  Factors multiply along a computation (`Close.mul`, `Close.trans`).  A significand with an
exponent that is small from the start is off by one unit at most (`roundWithAccuracy_small`).
-/
namespace FileGraph.Decimal

open Float.Model (Format UnpackedFloat totalExponent)
open Float.Model.UnpackedFloat

/-! ## Closeness -/

/-- One ulp, as a factor. -/
def slack : ℚ := 1 + 1 / 2 ^ 52

theorem one_le_slack : 1 ≤ slack := by
  unfold slack
  norm_num

theorem slack_pos : 0 < slack := lt_of_lt_of_le one_pos one_le_slack

/-- The numbers are at most `k` times a `slack` apart. -/
structure Close (k : Nat) (v y : ℚ) : Prop where
  below : v ≤ y * slack ^ k
  above : y ≤ v * slack ^ k

section Close

variable {j k : Nat} {v w y z : ℚ}

theorem Close.refl (v : ℚ) : Close 0 v v := ⟨by rw [pow_zero, mul_one], by rw [pow_zero, mul_one]⟩

theorem Close.trans (h : Close j v w) (h' : Close k w y) : Close (j + k) v y := by
  have hj := pow_pos slack_pos j
  have hk := pow_pos slack_pos k
  constructor
  · calc v ≤ w * slack ^ j := h.below
      _ ≤ y * slack ^ k * slack ^ j := mul_le_mul_of_nonneg_right h'.below hj.le
      _ = y * slack ^ (j + k) := by rw [pow_add]; ring
  · calc y ≤ w * slack ^ k := h'.above
      _ ≤ v * slack ^ j * slack ^ k := mul_le_mul_of_nonneg_right h.above hk.le
      _ = v * slack ^ (j + k) := by rw [pow_add]; ring

theorem Close.mul (h : Close j v y) (h' : Close k w z) (hv : 0 ≤ v) (hw : 0 ≤ w) (hy : 0 ≤ y) (hz : 0 ≤ z) :
    Close (j + k) (v * w) (y * z) := by
  have hj := pow_pos slack_pos j
  constructor
  · calc v * w ≤ y * slack ^ j * (z * slack ^ k) := mul_le_mul h.below h'.below hw (mul_nonneg hy hj.le)
      _ = y * z * slack ^ (j + k) := by rw [pow_add]; ring
  · calc y * z ≤ v * slack ^ j * (w * slack ^ k) := mul_le_mul h.above h'.above hz (mul_nonneg hv hj.le)
      _ = v * w * slack ^ (j + k) := by rw [pow_add]; ring

theorem Close.mono (h : Close j v y) (hjk : j ≤ k) (hv : 0 ≤ v) (hy : 0 ≤ y) : Close k v y := by
  have hpow : slack ^ j ≤ slack ^ k := pow_le_pow_right₀ one_le_slack hjk
  exact ⟨h.below.trans (mul_le_mul_of_nonneg_left hpow hy), h.above.trans (mul_le_mul_of_nonneg_left hpow hv)⟩

end Close

/-! ## Rounding a significand -/

theorem roundedMantissa_le (em : ExtendedMantissa) : em.roundedMantissa ≤ em.mantissa + 1 := by
  obtain ⟨m, r, s⟩ := em
  cases r <;> cases s <;>
    simp [ExtendedMantissa.roundedMantissa, ExtendedMantissa.accuracy, Accuracy.roundToNearestEven]
  omega

section Round

variable {M : Nat} {E : Int} {a : Accuracy}

/-- Rounding drops the bits above 53, may add one, and drops one more bit if that carries. -/
theorem roundWithAccuracy_spec (hM : 0 < M) (hE : -1074 ≤ E) (a : Accuracy) :
    ∃ r, M / 2 ^ (M.log2 - 52) ≤ r ∧ r ≤ M / 2 ^ (M.log2 - 52) + 1 ∧
      (r < 2 ^ 53 → ∃ h, roundWithAccuracy Format.binary64 .positive M E a =
        .finite .positive r (E + (M.log2 - 52 : Nat)) h) ∧
      (r = 2 ^ 53 → ∃ h, roundWithAccuracy Format.binary64 .positive M E a =
        .finite .positive (2 ^ 52) (E + (M.log2 - 52 : Nat) + 1) h) := by
  have hfirst := Weight.shiftToTargetExponent_eq M hE a
  generalize hem : ExtendedMantissa.ofMantissaAndAccuracy M a >>> (M.log2 - 52) = em at hfirst
  have hmantissa : em.mantissa = M / 2 ^ (M.log2 - 52) := by
    rw [← hem, Weight.mantissa_shiftRight, Weight.mantissa_ofMantissaAndAccuracy]
  obtain ⟨hdivpos, -⟩ := Weight.div_log2 hM
  have hle := Weight.le_roundedMantissa em
  have hge := roundedMantissa_le em
  rw [hmantissa] at hle hge
  have hE' : -1074 ≤ E + (M.log2 - 52 : Nat) := by omega
  have hsecond := Weight.shiftToTargetExponent_eq em.roundedMantissa hE' .exact
  have hpos : 0 < em.roundedMantissa := by omega
  refine ⟨em.roundedMantissa, hle, hge, fun hlt => ?_, fun heq => ?_⟩
  · have hlog : em.roundedMantissa.log2 - 52 = 0 := by
      have := (Nat.log2_lt (Nat.ne_of_gt hpos)).2 hlt
      omega
    rw [hlog, Int.natCast_zero, Int.add_zero] at hsecond
    exact ⟨hpos, Weight.roundWithAccuracy_eq hfirst hsecond hpos⟩
  · have hlog : em.roundedMantissa.log2 - 52 = 1 := by
      rw [heq, Nat.log2_two_pow]
    have hcarry : shiftToTargetExponent Format.binary64 em.roundedMantissa (E + (M.log2 - 52 : Nat)) .exact =
        (⟨2 ^ 52, false, false⟩, E + (M.log2 - 52 : Nat) + 1) := by
      rw [hsecond, hlog, heq]
      rfl
    exact ⟨by decide, Weight.roundWithAccuracy_eq hfirst hcarry (by decide)⟩

variable {v : ℚ}

/-- A number between a significand and the next one is so after the last bits of the significand are dropped. -/
theorem bounds_div_two_pow {k : Nat} (hlow : (M : ℚ) * 2 ^ E ≤ v) (hhigh : v ≤ (M + 1) * 2 ^ E) :
    ((M / 2 ^ k : Nat) : ℚ) * 2 ^ (E + (k : Int)) ≤ v ∧ v ≤ ((M / 2 ^ k : Nat) + 1) * 2 ^ (E + (k : Int)) := by
  obtain ⟨q, hq⟩ : ∃ q, q = M / 2 ^ k := ⟨_, rfl⟩
  have hunit : (0 : ℚ) < 2 ^ E := by positivity
  have hscale : ∀ n : Nat, ((n * 2 ^ k : Nat) : ℚ) * 2 ^ E = n * 2 ^ (E + (k : Int)) := by
    intro n
    rw [zpow_add₀ (by norm_num), zpow_natCast]
    push_cast
    ring
  rw [← hq]
  constructor
  · have hle : q * 2 ^ k ≤ M := hq ▸ Nat.div_mul_le_self _ _
    rw [← hscale]
    exact (mul_le_mul_of_nonneg_right (Nat.cast_le.2 hle) hunit.le).trans hlow
  · have hlt : M + 1 ≤ (q + 1) * 2 ^ k := by
      rw [Nat.add_mul, Nat.one_mul, hq]
      exact Nat.lt_div_mul_add (Nat.two_pow_pos k)
    have hcast : ((M + 1 : Nat) : ℚ) * 2 ^ E ≤ (q + 1 : Nat) * 2 ^ (E + (k : Int)) := by
      rw [← hscale]
      exact mul_le_mul_of_nonneg_right (Nat.cast_le.2 hlt) hunit.le
    push_cast at hcast
    exact hhigh.trans hcast

/-- The ends of an interval of one unit are close to all that is in it, if they have 53 bits. -/
theorem close_of_bounds {q r : Nat} {unit : ℚ} (hunit : 0 < unit) (hfull : 2 ^ 52 ≤ q) (hqr : q ≤ r) (hrq : r ≤ q + 1)
    (hlow : (q : ℚ) * unit ≤ v) (hhigh : v ≤ (q + 1) * unit) : Close 1 v (r * unit) := by
  have hfull' : (2 : ℚ) ^ 52 ≤ q := by exact_mod_cast hfull
  have hqr' : (q : ℚ) ≤ r := by exact_mod_cast hqr
  have hrq' : (r : ℚ) ≤ q + 1 := by exact_mod_cast hrq
  have hulp : unit ≤ q * unit / 2 ^ 52 := by
    rw [le_div_iff₀ (by positivity), mul_comm]
    exact mul_le_mul_of_nonneg_right hfull' hunit.le
  have hlower := mul_le_mul_of_nonneg_right hqr' hunit.le
  have hupper := mul_le_mul_of_nonneg_right hrq' hunit.le
  have hslack : ∀ x : ℚ, x * slack ^ 1 = x + x / 2 ^ 52 := by
    intro x
    unfold slack
    ring
  constructor
  · rw [hslack]
    linarith
  · rw [hslack]
    linarith

/-- A significand of at least 53 bits is rounded to one of 53 bits that is close. -/
theorem roundWithAccuracy_full (hM : 52 ≤ M.log2) (hE : -1074 ≤ E) (hlow : (M : ℚ) * 2 ^ E ≤ v)
    (hhigh : v ≤ (M + 1) * 2 ^ E) (a : Accuracy) :
    ∃ m e h, roundWithAccuracy Format.binary64 .positive M E a = .finite .positive m e h ∧
      2 ^ 52 ≤ m ∧ m < 2 ^ 53 ∧ -1074 ≤ e ∧ Close 1 v (m * 2 ^ e) := by
  have hpos : 0 < M := Nat.pos_of_ne_zero fun h => by
    rw [h, Nat.log2_zero] at hM
    omega
  obtain ⟨k, hk⟩ : ∃ k, k = M.log2 - 52 := ⟨_, rfl⟩
  obtain ⟨r, hqr, hrq, hsmall, hcarry⟩ := roundWithAccuracy_spec hpos hE a
  rw [← hk] at hqr hrq hsmall hcarry
  have hfull : 2 ^ 52 ≤ M / 2 ^ k := by
    rw [Nat.le_div_iff_mul_le (Nat.two_pow_pos k), ← Nat.pow_add]
    have hlog : 52 + k = M.log2 := by omega
    rw [hlog]
    exact Nat.log2_self_le (Nat.ne_of_gt hpos)
  have hbits : M / 2 ^ k < 2 ^ 53 := hk ▸ (Weight.div_log2 hpos).2
  obtain ⟨hbelow, habove⟩ := bounds_div_two_pow (k := k) hlow hhigh
  have hclose := close_of_bounds (by positivity) hfull hqr hrq hbelow habove
  by_cases hr : r < 2 ^ 53
  · obtain ⟨h, heq⟩ := hsmall hr
    exact ⟨r, E + (k : Int), h, heq, hfull.trans hqr, hr, by omega, hclose⟩
  · -- rounding up needed one bit more, and the significand is halved again
    have hr' : r = 2 ^ 53 := by omega
    obtain ⟨h, heq⟩ := hcarry hr'
    have hvalue : ((2 ^ 52 : Nat) : ℚ) * 2 ^ (E + (k : Int) + 1) = r * 2 ^ (E + (k : Int)) := by
      rw [zpow_add₀ (by norm_num) _ 1, hr', zpow_one]
      push_cast
      ring
    exact ⟨2 ^ 52, E + (k : Int) + 1, h, heq, le_rfl, by decide, by omega, hvalue ▸ hclose⟩

/-- A significand of fewer bits stays, or becomes one larger. -/
theorem roundWithAccuracy_small (hpos : 0 < M) (hM : M < 2 ^ 52) (hE : -1074 ≤ E) (a : Accuracy) :
    ∃ m h, roundWithAccuracy Format.binary64 .positive M E a = .finite .positive m E h ∧ M ≤ m ∧ m ≤ M + 1 := by
  have hlog : M.log2 - 52 = 0 := by
    have := (Nat.log2_lt (Nat.ne_of_gt hpos)).2 hM
    omega
  obtain ⟨r, hle, hge, hsmall, -⟩ := roundWithAccuracy_spec hpos hE a
  rw [hlog, Nat.pow_zero, Nat.div_one] at hle hge
  obtain ⟨h, heq⟩ := hsmall (by omega)
  rw [hlog, Int.natCast_zero, Int.add_zero] at heq
  exact ⟨r, h, heq, hle, hge⟩

end Round

end FileGraph.Decimal
