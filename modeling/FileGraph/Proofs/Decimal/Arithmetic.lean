import FileGraph.Proofs.Decimal.Rounding
/-!
# Arithmetic — products, quotients and powers of ten

Each operation on positive floats gives a float that is close to the exact result, if that is well inside the range of
floats.  A quotient below the normal range is off by the smallest float at most, and not zero unless it is smaller than
that (`positional_div`).  Natural numbers of 64 bits and powers of ten up to `10 ^ 308` are floats close to them.
-/
namespace FileGraph.Decimal

open Float.Model (Format UnpackedFloat totalExponent)
open Float.Model.UnpackedFloat

/-- The float is positive and finite, and close to the number. -/
def Approx (k : Nat) (v : ℚ) (x : Float) : Prop := ∃ m e, Positional x m e ∧ Close k v (m * 2 ^ e)

/-! ## Range -/

theorem exponent_le {m : Nat} {e : Int} (hfull : 2 ^ 52 ≤ m) (h : (m : ℚ) * 2 ^ e < 2 ^ 1024) : e ≤ 971 := by
  have hfull' : (2 : ℚ) ^ 52 ≤ m := by exact_mod_cast hfull
  have hpos : (0 : ℚ) < 2 ^ e := by positivity
  have hlt : (2 : ℚ) ^ (52 + e) < 2 ^ (1024 : Int) := by
    calc (2 : ℚ) ^ (52 + e) = 2 ^ 52 * 2 ^ e := by rw [zpow_add₀ (by norm_num)]; rfl
      _ ≤ m * 2 ^ e := mul_le_mul_of_nonneg_right hfull' hpos.le
      _ < 2 ^ 1024 := h
  have := (zpow_lt_zpow_iff_right₀ (by norm_num : (1 : ℚ) < 2)).1 hlt
  omega

theorem lt_two_pow_1024 {v : ℚ} (h : v ≤ 2 ^ 100) : v < 2 ^ 1024 :=
  h.trans_lt (pow_lt_pow_right₀ (by norm_num) (by decide))

theorem exponent_ge {m : Nat} {e : Int} (hbits : m < 2 ^ 53) (h : 1 / 2 ≤ (m : ℚ) * 2 ^ e) : -53 ≤ e := by
  have hbits' : (m : ℚ) < 2 ^ 53 := by exact_mod_cast hbits
  have hpos : (0 : ℚ) < 2 ^ e := by positivity
  have hlt : (2 : ℚ) ^ (-1 : Int) < 2 ^ (53 + e) := by
    calc (2 : ℚ) ^ (-1 : Int) = 1 / 2 := by norm_num
      _ ≤ m * 2 ^ e := h
      _ < 2 ^ 53 * 2 ^ e := mul_lt_mul_of_pos_right hbits' hpos
      _ = 2 ^ (53 + e) := by rw [zpow_add₀ (by norm_num)]; rfl
  have := (zpow_lt_zpow_iff_right₀ (by norm_num : (1 : ℚ) < 2)).1 hlt
  omega

theorem slack_pow_le {k : Nat} (hk : k ≤ 8) : slack ^ k ≤ 101 / 100 := by
  calc slack ^ k ≤ slack ^ 8 := pow_le_pow_right₀ one_le_slack hk
    _ ≤ 101 / 100 := by unfold slack; norm_num

theorem slack_le : slack ≤ 101 / 100 := by
  have h := slack_pow_le (k := 1) (by decide)
  rwa [pow_one] at h

/-- What is close to a number of at least one has a full significand and no small exponent. -/
theorem full_of_close {k m : Nat} {e : Int} {v : ℚ} (hcanonical : Canonical m e) (h : Close k v (m * 2 ^ e)) (hk : k ≤ 8)
    (hv : 1 ≤ v) : 2 ^ 52 ≤ m ∧ -53 ≤ e := by
  have hy : (0 : ℚ) ≤ m * 2 ^ e := by positivity
  have hhalf : 1 / 2 ≤ (m : ℚ) * 2 ^ e := by
    have := mul_le_mul_of_nonneg_left (slack_pow_le hk) hy
    have hbelow := h.below
    linarith
  have hlow := exponent_ge hcanonical.bits hhalf
  exact ⟨hcanonical.full.resolve_right (by omega), hlow⟩

/-! ## Rounded results -/

/-- A rounded significand is a float close to the exact number. -/
theorem approx_pack {M : Nat} {E : Int} {v : ℚ} (hM : 52 ≤ M.log2) (hE : -1074 ≤ E) (hlow : (M : ℚ) * 2 ^ E ≤ v)
    (hhigh : v ≤ (M + 1) * 2 ^ E) (hfinite : v * slack < 2 ^ 1024) (a : Accuracy) :
    Approx 1 v (.ofModel (.pack (roundWithAccuracy Format.binary64 .positive M E a))) := by
  obtain ⟨m, e, hpos, heq, hfull, hbits, he, hclose⟩ := roundWithAccuracy_full hM hE hlow hhigh a
  have habove := hclose.above
  rw [pow_one] at habove
  have hcanonical : Canonical m e := ⟨hpos, hbits, he, exponent_le hfull (habove.trans_lt hfinite), .inl hfull⟩
  rw [heq]
  exact ⟨m, e, positional_pack hcanonical, hclose⟩

theorem approx_pack_exact {M : Nat} {E : Int} (hM : 52 ≤ M.log2) (hE : -1074 ≤ E)
    (hfinite : (M : ℚ) * 2 ^ E * slack < 2 ^ 1024) :
    Approx 1 (M * 2 ^ E) (.ofModel (.pack (roundWithAccuracy Format.binary64 .positive M E .exact))) := by
  have hunit : (0 : ℚ) < 2 ^ E := by positivity
  exact approx_pack hM hE le_rfl (mul_le_mul_of_nonneg_right (by linarith) hunit.le) hfinite .exact

/-! ## Products -/

section Operations

variable {x y : Float} {m₁ m₂ : Nat} {e₁ e₂ : Int}

theorem mul_eq (hx : Positional x m₁ e₁) (hy : Positional y m₂ e₂) :
    x * y = .ofModel (.pack (roundWithAccuracy Format.binary64 .positive (m₁ * m₂) (e₁ + e₂) .exact)) := by
  obtain ⟨-, h₁, hx⟩ := hx
  obtain ⟨-, h₂, hy⟩ := hy
  change Float.ofModel (.pack (mul Format.binary64 x.toModel.unpack y.toModel.unpack)) = _
  rw [hx, hy]
  rfl

theorem le_log2_mul {m n : Nat} (hm : 2 ^ 52 ≤ m) (hn : 0 < n) : 52 ≤ (m * n).log2 := by
  have hle : m ≤ m * n := Nat.le_mul_of_pos_right _ hn
  exact (Nat.le_log2 (by omega)).2 (hm.trans hle)

/-- **A product is close to the product of what its factors are close to.** -/
theorem approx_mul {j k : Nat} {v w : ℚ} (hx : Approx j v x) (hy : Approx k w y) (hv : 1 ≤ v) (hw : 1 ≤ w)
    (hj : j ≤ 8) (hk : k ≤ 8) (hfinite : v * w * slack ^ (j + k + 1) < 2 ^ 1024) :
    Approx (j + k + 1) (v * w) (x * y) := by
  obtain ⟨m₁, e₁, hx, hclose₁⟩ := hx
  obtain ⟨m₂, e₂, hy, hclose₂⟩ := hy
  obtain ⟨hfull₁, he₁⟩ := full_of_close hx.canonical hclose₁ hj hv
  obtain ⟨hfull₂, he₂⟩ := full_of_close hy.canonical hclose₂ hk hw
  have hproduct : ((m₁ * m₂ : Nat) : ℚ) * 2 ^ (e₁ + e₂) = m₁ * 2 ^ e₁ * (m₂ * 2 ^ e₂) := by
    rw [zpow_add₀ (by norm_num)]
    push_cast
    ring
  have hclose := hclose₁.mul hclose₂ (by linarith) (by linarith) (by positivity) (by positivity)
  rw [← hproduct] at hclose
  have hslack : ((m₁ * m₂ : Nat) : ℚ) * 2 ^ (e₁ + e₂) * slack < 2 ^ 1024 := by
    calc ((m₁ * m₂ : Nat) : ℚ) * 2 ^ (e₁ + e₂) * slack
        ≤ v * w * slack ^ (j + k) * slack := mul_le_mul_of_nonneg_right hclose.above slack_pos.le
      _ = v * w * slack ^ (j + k + 1) := by rw [pow_succ]; ring
      _ < 2 ^ 1024 := hfinite
  have hlog := le_log2_mul hfull₁ hy.canonical.pos
  obtain ⟨m, e, hresult, hround⟩ := approx_pack_exact (E := e₁ + e₂) hlog (by omega) hslack
  rw [mul_eq hx hy]
  exact ⟨m, e, hresult, hclose.trans hround⟩

/-! ## Quotients -/

theorem div_eq (hx : Positional x m₁ e₁) (hy : Positional y m₂ e₂) : ∃ S : Nat,
    (S : Int) = e₁ - e₂ - min (e₁ - e₂) (max (m₁.log2 + e₁ - (m₂.log2 + e₂) - 53) (-1074)) ∧
    x / y = .ofModel (.pack (roundWithAccuracy Format.binary64 .positive ((m₁ <<< S) / m₂) (e₁ - e₂ - S)
      (accuracyOfFraction ((m₁ <<< S) % m₂) m₂))) := by
  obtain ⟨-, h₁, hx⟩ := hx
  obtain ⟨-, h₂, hy⟩ := hy
  obtain ⟨t, ht⟩ : ∃ t, t = min (e₁ - e₂)
    (Format.binary64.targetExponent (totalExponent m₁ e₁ - totalExponent m₂ e₂)) := ⟨_, rfl⟩
  have ht' : t = min (e₁ - e₂) (max (m₁.log2 + e₁ - (m₂.log2 + e₂) - 53) (-1074)) := by
    rw [ht, Format.targetExponent, Format.minExponent]
    simp only [totalExponent, Weight.mantissaBits_binary64]
    omega
  refine ⟨(e₁ - e₂ - t).toNat, by omega, ?_⟩
  have hexponent : e₁ - e₂ - ((e₁ - e₂ - t).toNat : Int) = t := by omega
  rw [hexponent]
  change Float.ofModel (.pack (div Format.binary64 x.toModel.unpack y.toModel.unpack)) = _
  rw [hx, hy, ht]
  rfl

/-- The exact quotient lies between the quotient of the significands and the next one. -/
theorem quotient_bounds {S : Nat} {v : ℚ} (h₂ : 0 < m₂) (hv : v * (m₂ * 2 ^ e₂) = m₁ * 2 ^ e₁) :
    ((m₁ <<< S / m₂ : Nat) : ℚ) * 2 ^ (e₁ - e₂ - S) ≤ v ∧
      v < ((m₁ <<< S / m₂ : Nat) + 1) * 2 ^ (e₁ - e₂ - S) := by
  obtain ⟨M, hM⟩ : ∃ M, M = m₁ <<< S / m₂ := ⟨_, rfl⟩
  obtain ⟨unit, hunit⟩ : ∃ unit : ℚ, unit = 2 ^ (e₁ - e₂ - S) := ⟨_, rfl⟩
  have hunitpos : 0 < unit := by rw [hunit]; positivity
  have h₂' : (0 : ℚ) < m₂ := Nat.cast_pos.2 h₂
  have hshift : ((m₁ <<< S : Nat) : ℚ) * unit = v * m₂ := by
    have htwo : (2 : ℚ) ^ e₁ = 2 ^ S * unit * 2 ^ e₂ := by
      rw [hunit, ← zpow_natCast, ← zpow_add₀ (by norm_num), ← zpow_add₀ (by norm_num)]
      congr 1
      omega
    have he₂ : (2 : ℚ) ^ e₂ ≠ 0 := by positivity
    rw [Nat.shiftLeft_eq]
    push_cast
    rw [htwo] at hv
    refine mul_right_cancel₀ he₂ ?_
    linear_combination -hv
  have hlow : M * m₂ ≤ m₁ <<< S := hM ▸ Nat.div_mul_le_self _ _
  have hhigh : m₁ <<< S < (M + 1) * m₂ := by
    rw [Nat.add_mul, Nat.one_mul, hM]
    exact Nat.lt_div_mul_add h₂
  rw [← hM, ← hunit]
  constructor
  · refine le_of_mul_le_mul_right ?_ h₂'
    rw [← hshift]
    calc (M : ℚ) * unit * m₂ = (M * m₂ : Nat) * unit := by push_cast; ring
      _ ≤ (m₁ <<< S : Nat) * unit := mul_le_mul_of_nonneg_right (Nat.cast_le.2 hlow) hunitpos.le
  · refine lt_of_mul_lt_mul_right ?_ h₂'.le
    rw [← hshift]
    calc ((m₁ <<< S : Nat) : ℚ) * unit < ((M + 1) * m₂ : Nat) * unit :=
          mul_lt_mul_of_pos_right (Nat.cast_lt.2 hhigh) hunitpos
      _ = (M + 1) * unit * m₂ := by push_cast; ring

/-- Where the quotient of the significands has few bits, its exponent is the smallest. -/
theorem full_or_lowest {S : Nat} (h₁ : 0 < m₁) (hbits : m₁ < 2 ^ 53) (h₂ : 0 < m₂)
    (hS : (S : Int) = e₁ - e₂ - min (e₁ - e₂) (max (m₁.log2 + e₁ - (m₂.log2 + e₂) - 53) (-1074)))
    (he : -1074 ≤ e₁ - e₂) : 52 ≤ (m₁ <<< S / m₂).log2 ∨ e₁ - e₂ - S = -1074 := by
  by_cases hlowest : e₁ - e₂ - S = -1074
  · exact .inr hlowest
  · left
    have hlog₁ : m₁.log2 < 53 := (Nat.log2_lt (Nat.ne_of_gt h₁)).2 hbits
    have hS' : S + m₁.log2 = 53 + m₂.log2 := by omega
    have hle : 2 ^ 52 ≤ m₁ <<< S / m₂ := by
      rw [Nat.le_div_iff_mul_le h₂, Nat.shiftLeft_eq]
      calc 2 ^ 52 * m₂ ≤ 2 ^ 52 * 2 ^ (m₂.log2 + 1) := Nat.mul_le_mul_left _ (Nat.le_of_lt Nat.lt_log2_self)
        _ = 2 ^ (m₁.log2 + S) := by rw [← Nat.pow_add]; congr 1; omega
        _ = 2 ^ m₁.log2 * 2 ^ S := Nat.pow_add _ _ _
        _ ≤ m₁ * 2 ^ S := Nat.mul_le_mul_right _ (Nat.log2_self_le (Nat.ne_of_gt h₁))
    have hne : m₁ <<< S / m₂ ≠ 0 := by omega
    exact (Nat.le_log2 hne).2 hle

theorem exponents_of_quotient (hbits : m₁ < 2 ^ 53) (hfull : 2 ^ 52 ≤ m₂) {v : ℚ}
    (hv : v * (m₂ * 2 ^ e₂) = m₁ * 2 ^ e₁) (hlow : 2 ^ (-1074 : Int) ≤ v) : -1074 ≤ e₁ - e₂ := by
  have hpos : (0 : ℚ) < m₂ := Nat.cast_pos.2 (by omega)
  have hbits' : (m₁ : ℚ) < 2 * m₂ := by exact_mod_cast (show m₁ < 2 * m₂ by omega)
  have hunit₁ : (0 : ℚ) < 2 ^ e₁ := by positivity
  have hunit₂ : (0 : ℚ) < m₂ * 2 ^ e₂ := by positivity
  have hlt : (m₂ : ℚ) * 2 ^ (-1074 + e₂) < m₂ * 2 ^ (e₁ + 1) := by
    calc (m₂ : ℚ) * 2 ^ (-1074 + e₂) = 2 ^ (-1074 : Int) * (m₂ * 2 ^ e₂) := by rw [zpow_add₀ (by norm_num)]; ring
      _ ≤ v * (m₂ * 2 ^ e₂) := mul_le_mul_of_nonneg_right hlow hunit₂.le
      _ = m₁ * 2 ^ e₁ := hv
      _ < 2 * m₂ * 2 ^ e₁ := mul_lt_mul_of_pos_right hbits' hunit₁
      _ = m₂ * 2 ^ (e₁ + 1) := by rw [zpow_add₀ (by norm_num), zpow_one]; ring
  have := (zpow_lt_zpow_iff_right₀ (by norm_num : (1 : ℚ) < 2)).1 (lt_of_mul_lt_mul_left hlt hpos.le)
  omega

/-- **A quotient that is not below the smallest float is a positive float**, close to the exact one or less than the
smallest float away. -/
theorem positional_div (hx : Positional x m₁ e₁) (hy : Positional y m₂ e₂) (hfull : 2 ^ 52 ≤ m₂) {v : ℚ}
    (hv : v * (m₂ * 2 ^ e₂) = m₁ * 2 ^ e₁) (hlow : 2 ^ (-1074 : Int) ≤ v) (hhigh : v * slack < 2 ^ 1024) :
    ∃ m e, Positional (x / y) m e ∧ v ≤ m * 2 ^ e * slack + 2 ^ (-1074 : Int) := by
  obtain ⟨S, hS, hdiv⟩ := div_eq hx hy
  obtain ⟨hbelow, habove⟩ := quotient_bounds (S := S) hy.canonical.pos hv
  have hsmallest : (0 : ℚ) < 2 ^ (-1074 : Int) := by positivity
  have hexponents := exponents_of_quotient hx.canonical.bits hfull hv hlow
  rw [hdiv]
  by_cases hlog : 52 ≤ (m₁ <<< S / m₂).log2
  · obtain ⟨m, e, hresult, hclose⟩ := approx_pack (E := e₁ - e₂ - S) hlog (by omega) hbelow habove.le hhigh
      (accuracyOfFraction ((m₁ <<< S) % m₂) m₂)
    have hle := hclose.below
    rw [pow_one] at hle
    exact ⟨m, e, hresult, by linarith⟩
  · -- a quotient of few bits has the smallest exponent, and is rounded by one unit at most
    have hlowest := (full_or_lowest hx.canonical.pos hx.canonical.bits hy.canonical.pos hS hexponents).resolve_left hlog
    rw [hlowest] at habove ⊢
    have hpos : 0 < m₁ <<< S / m₂ := by
      have hone : (1 : ℚ) < (m₁ <<< S / m₂ : Nat) + 1 := by
        refine lt_of_mul_lt_mul_right ?_ hsmallest.le
        rw [one_mul]
        exact hlow.trans_lt habove
      have hzero : (0 : ℚ) < (m₁ <<< S / m₂ : Nat) := by linarith
      exact_mod_cast hzero
    have hbits : m₁ <<< S / m₂ < 2 ^ 52 := (Nat.log2_lt (Nat.ne_of_gt hpos)).1 (by omega)
    obtain ⟨m, hm, heq, hle, hge⟩ := roundWithAccuracy_small hpos hbits (E := -1074) le_rfl
      (accuracyOfFraction ((m₁ <<< S) % m₂) m₂)
    have hcanonical : Canonical m (-1074) := ⟨hm, by omega, le_rfl, by decide, .inr rfl⟩
    rw [heq]
    refine ⟨m, -1074, positional_pack hcanonical, ?_⟩
    have hle' : ((m₁ <<< S / m₂ : Nat) : ℚ) ≤ m := by exact_mod_cast hle
    have hmul := mul_le_mul_of_nonneg_right hle' hsmallest.le
    have hslack := mul_le_mul_of_nonneg_left one_le_slack (show (0 : ℚ) ≤ m * 2 ^ (-1074 : Int) by positivity)
    linarith

end Operations

/-! ## Numbers to start from -/

theorem approx_toUInt64 {n : Nat} (hpos : 0 < n) (hn : n < 2 ^ 53) : Approx 1 n n.toUInt64.toFloat := by
  have hlog : n.log2 < 53 := (Nat.log2_lt (Nat.ne_of_gt hpos)).2 hn
  have hvalue : ((n <<< (52 - n.log2) : Nat) : ℚ) * 2 ^ (0 - ((52 - n.log2 : Nat) : Int)) = n := by
    rw [Nat.shiftLeft_eq, zero_sub, zpow_neg, zpow_natCast]
    push_cast
    field_simp
  have hfinite : (n : ℚ) * slack < 2 ^ 1024 := by
    have hn' : (n : ℚ) < 2 ^ 53 := by exact_mod_cast hn
    refine lt_two_pow_1024 ?_
    calc (n : ℚ) * slack ≤ 2 ^ 53 * 2 := mul_le_mul hn'.le (by unfold slack; norm_num) slack_pos.le (by positivity)
      _ ≤ 2 ^ 100 := by norm_num
  have happrox := approx_pack_exact (M := n <<< (52 - n.log2)) (E := 0 - ((52 - n.log2 : Nat) : Int))
    (Weight.log2_shiftLeft hpos hn).ge (by omega) (by rwa [hvalue])
  rw [hvalue] at happrox
  rwa [Weight.toFloat_toUInt64 hpos hn]

theorem approx_ofScientific {s n : Nat} (hs : 0 < s) (hn : n ≤ 308) (hfinite : (s : ℚ) * 10 ^ n * slack < 2 ^ 1024) :
    Approx 1 (s * 10 ^ n) (.ofModel (.ofScientific s (Int.ofNat n))) := by
  have hmodel : Float.ofModel (.ofScientific s (Int.ofNat n)) = .ofModel (.pack
      (roundWithAccuracy Format.binary64 .positive (s <<< 53 * 10 ^ n) (-53) .exact)) := by
    have hne : s ≠ 0 := Nat.ne_of_gt hs
    have hsmall : ¬ Int.ofNat n > 2 ^ 11 := by
      simp only [Int.ofNat_eq_natCast]
      omega
    have hlarge : ¬ Int.ofNat n < -((2 ^ 11 : Int) + s.log2) := by
      simp only [Int.ofNat_eq_natCast]
      omega
    have hnonneg : 0 ≤ Int.ofNat n := Int.natCast_nonneg n
    unfold Float.Model.ofScientific
    rw [UnpackedFloat.ofScientific, dif_neg hne, if_neg hsmall, if_neg hlarge, if_pos hnonneg]
    rfl
  have hvalue : ((s <<< 53 * 10 ^ n : Nat) : ℚ) * 2 ^ (-53 : Int) = s * 10 ^ n := by
    rw [Nat.shiftLeft_eq, zpow_neg]
    push_cast
    field_simp
  have hlog : 52 ≤ (s <<< 53 * 10 ^ n).log2 := by
    refine le_log2_mul ?_ (by positivity)
    rw [Nat.shiftLeft_eq]
    calc 2 ^ 52 ≤ 1 * 2 ^ 53 := by decide
      _ ≤ s * 2 ^ 53 := Nat.mul_le_mul_right _ hs
  have happrox := approx_pack_exact (E := -53) hlog (by decide) (by rwa [hvalue])
  rw [hvalue] at happrox
  rwa [hmodel]

theorem positional_of_parts {x : Float} {m : Nat} {e : Int} (hm : 0 < m) (h : parts x = .finite false m e) :
    Positional x m e :=
  ⟨(canonical_of_parts h).resolve_left (Nat.ne_of_gt hm), hm, eq_of_ofUnpacked hm ((parts_eq x).symm.trans h)⟩

/-- The float is the natural number. -/
def isExactly (x : Float) (v : Nat) : Bool :=
  match parts x with
  | .finite false m e => decide (0 < m) && m * 2 ^ e.toNat == v * 2 ^ (-e).toNat
  | _ => false

theorem approx_of_isExactly {x : Float} {v : Nat} (h : isExactly x v = true) : Approx 0 v x := by
  unfold isExactly at h
  split at h
  · rename_i m e hparts
    rw [Bool.and_eq_true, decide_eq_true_eq, beq_iff_eq] at h
    obtain ⟨hm, heq⟩ := h
    have heq' : (m : ℚ) * 2 ^ e.toNat = v * 2 ^ (-e).toNat := by exact_mod_cast heq
    have hvalue : (m : ℚ) * 2 ^ e = v := by
      rw [zpow_eq_div (by norm_num) e, mul_div_assoc', heq']
      field_simp
    exact ⟨m, e, positional_of_parts hm hparts, hvalue ▸ Close.refl _⟩
  · cases h

theorem Approx.mono {j k : Nat} {v : ℚ} {x : Float} (h : Approx j v x) (hjk : j ≤ k) (hv : 0 ≤ v) : Approx k v x := by
  obtain ⟨m, e, hx, hclose⟩ := h
  exact ⟨m, e, hx, hclose.mono hjk hv (by positivity)⟩

/-- **A number of 64 bits is close to its float.** -/
theorem approx_ofNat {s : Nat} (hs : 0 < s) (hbits : s < 2 ^ 64) : Approx 2 s (Float.ofScientific s false 0) := by
  have hs' : (1 : ℚ) ≤ s := by exact_mod_cast hs
  have hfinite : ∀ k ≤ 8, (s : ℚ) * slack ^ k < 2 ^ 1024 := by
    intro k hk
    have hbits' : (s : ℚ) < 2 ^ 64 := by exact_mod_cast hbits
    have hslack : slack ^ k ≤ 2 := (slack_pow_le hk).trans (by norm_num)
    refine lt_two_pow_1024 ?_
    calc (s : ℚ) * slack ^ k ≤ 2 ^ 64 * 2 :=
          mul_le_mul hbits'.le hslack (pow_pos slack_pos k).le (by positivity)
      _ ≤ 2 ^ 100 := by norm_num
  -- small numbers go through words and are multiplied by one, which rounds twice; the others are rounded once
  by_cases hsmall : s < 2 ^ 53
  · have hone : Approx 0 (1 : Nat) (Float.ofBits 0x3FF0000000000000) := approx_of_isExactly (by decide +kernel)
    rw [Nat.cast_one] at hone
    have hproduct := approx_mul (approx_toUInt64 hs hsmall) hone hs' le_rfl (by decide) (by decide)
      (by rw [mul_one]; exact hfinite 2 (by decide))
    rw [mul_one] at hproduct
    rw [Float.ofScientific, dif_pos ⟨hsmall, by decide⟩]
    exact hproduct
  · have hmodel := approx_ofScientific (n := 0) hs (by decide) (by
      rw [pow_zero, mul_one, ← pow_one slack]
      exact hfinite 1 (by decide))
    rw [pow_zero, mul_one] at hmodel
    rw [Float.ofScientific, dif_neg fun h => hsmall h.1]
    exact hmodel.mono (by decide) (by positivity)

theorem isExactly_power : ∀ n < 23, isExactly (Numeral.power n) (10 ^ n) = true := by decide +kernel

/-- **A power of ten is close to its float.** -/
theorem approx_power {n : Nat} (hn : n ≤ 308) : Approx 1 (10 ^ n) (Numeral.power n) := by
  -- the powers below 10 ^ 23 are exact and come from a table, and the others are rounded once
  by_cases hsmall : n < 23
  · have hexact := approx_of_isExactly (isExactly_power n hsmall)
    rw [Nat.cast_pow, Nat.cast_ofNat] at hexact
    exact hexact.mono (by decide) (by positivity)
  · have hlargest : (10 : ℚ) ^ 308 * 101 < 2 ^ 1024 * 100 := by
      have hnat : 10 ^ 308 * 101 < 2 ^ 1024 * 100 := by decide +kernel
      exact_mod_cast hnat
    have hfinite : ((1 : Nat) : ℚ) * 10 ^ n * slack < 2 ^ 1024 := by
      have hpow : (10 : ℚ) ^ n ≤ 10 ^ 308 := pow_le_pow_right₀ (by norm_num) hn
      rw [Nat.cast_one, one_mul]
      calc (10 : ℚ) ^ n * slack ≤ 10 ^ 308 * (101 / 100) := mul_le_mul hpow slack_le slack_pos.le (by positivity)
        _ < 2 ^ 1024 := by
          rw [mul_div_assoc', div_lt_iff₀ (by norm_num)]
          exact hlargest
    have hmodel := approx_ofScientific (s := 1) Nat.one_pos hn hfinite
    rw [Nat.cast_one, one_mul] at hmodel
    rw [Numeral.power, Float.ofScientific, dif_neg fun h => hsmall (by omega)]
    exact hmodel

end FileGraph.Decimal
