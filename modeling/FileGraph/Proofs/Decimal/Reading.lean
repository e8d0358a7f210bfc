import FileGraph.Proofs.Decimal.Arithmetic
/-!
# Reading — what a positive float is written as is read as a positive float

The numeral of a float is read from the digits of its shortest decimal, none of which is dropped (`float?_ofDecimal`).
Scaling by a power of ten stays in range, and above zero, if the decimal is a little inside the range (`scale_spec`).
The smallest float and the eight largest ones are not: they are read one by one (`rereads`).
-/
namespace FileGraph.Decimal

open Numeral

/-! ## Digits that are kept -/

theorem takeDigits_eq : ∀ {ds : List Nat} {n : Nat}, n * 10 ^ ds.length + ofDigits ds ≤ maxWord →
    takeDigits n ds = (n * 10 ^ ds.length + ofDigits ds, [])
  | [], n, _ => by
    rw [takeDigits, List.length_nil, Nat.pow_zero, Nat.mul_one]
    rfl
  | d :: ds, n, h => by
    have hvalue : n * 10 ^ (d :: ds).length + ofDigits (d :: ds) = (10 * n + d) * 10 ^ ds.length + ofDigits ds := by
      rw [ofDigits_cons, List.length_cons]
      ring
    rw [hvalue] at h ⊢
    have hle : 10 * n + d ≤ (10 * n + d) * 10 ^ ds.length := Nat.le_mul_of_pos_right _ (Nat.pow_pos (by decide))
    rw [takeDigits, if_pos (by omega), takeDigits_eq h]

/-- Where the digits make a number of 64 bits, none of them is dropped. -/
theorem float?_eq {n : Numeral} (h : ofDigits (n.whole ++ n.fraction) ≤ maxWord) : n.float? =
    match n.exponent with
    | none => scaleSigned n.negative (ofDigits (n.whole ++ n.fraction)) (-(n.fraction.length : Int))
    | some (negative, ds) =>
      if maxExponent < ofDigits ds then
        if ofDigits (n.whole ++ n.fraction) ≠ 0 && !negative then none else some (if n.negative then -0.0 else 0.0)
      else scaleSigned n.negative (ofDigits (n.whole ++ n.fraction))
        (if negative then -(n.fraction.length : Int) - ofDigits ds else -(n.fraction.length : Int) + ofDigits ds) := by
  have happend := ofDigits_append n.whole n.fraction
  have hwhole : takeDigits 0 n.whole = (ofDigits n.whole, []) := by
    have hle : ofDigits n.whole ≤ ofDigits n.whole * 10 ^ n.fraction.length :=
      Nat.le_mul_of_pos_right _ (Nat.pow_pos (by decide))
    have hle' : 0 * 10 ^ n.whole.length + ofDigits n.whole ≤ maxWord := by omega
    have hkeep := takeDigits_eq hle'
    rwa [Nat.zero_mul, Nat.zero_add] at hkeep
  have hfraction : takeDigits (ofDigits n.whole) n.fraction = (ofDigits (n.whole ++ n.fraction), []) := by
    rw [happend] at h ⊢
    exact takeDigits_eq h
  have hshift : ((([] : List Nat).length : Nat) : Int) - ((n.fraction.length - ([] : List Nat).length : Nat) : Int) =
      -(n.fraction.length : Int) := by
    simp
  unfold float?
  rw [hwhole]
  dsimp only
  rw [hfraction]
  dsimp only
  rewrite [hshift]
  rfl

section Layouts

variable {ds : List Nat}

theorem le_maxWord {n : Nat} (h : n < 2 ^ 64) : n ≤ maxWord := Nat.le_pred_of_lt h

theorem float?_whole {k : Nat} (h : ofDigits ds * 10 ^ (k + 1) < 2 ^ 64) :
    float? ⟨false, ds ++ List.replicate k 0, [0], none⟩ = scaleSigned false (ofDigits ds * 10 ^ (k + 1)) (-1) := by
  have hall : ofDigits (ds ++ List.replicate k 0 ++ [0]) = ofDigits ds * 10 ^ (k + 1) := by
    rw [ofDigits_append, ofDigits_append, ofDigits_replicate_zero, List.length_replicate]
    simp [ofDigits]
    ring
  rw [float?_eq (hall ▸ le_maxWord h)]
  dsimp only
  rw [hall]
  rfl

theorem float?_split {k : Nat} (h : ofDigits ds < 2 ^ 64) :
    float? ⟨false, ds.take k, ds.drop k, none⟩ = scaleSigned false (ofDigits ds) (-((ds.length - k : Nat) : Int)) := by
  have hall : ofDigits (ds.take k ++ ds.drop k) = ofDigits ds := congrArg ofDigits (List.take_append_drop k ds)
  rw [float?_eq (hall ▸ le_maxWord h)]
  dsimp only
  rw [hall, List.length_drop]

theorem float?_zeros {k : Nat} (h : ofDigits ds < 2 ^ 64) :
    float? ⟨false, [0], List.replicate k 0 ++ ds, none⟩ =
      scaleSigned false (ofDigits ds) (-((k + ds.length : Nat) : Int)) := by
  have hall : ofDigits ([0] ++ (List.replicate k 0 ++ ds)) = ofDigits ds := by
    rw [ofDigits_append, ofDigits_append, ofDigits_replicate_zero]
    simp [ofDigits]
  rw [float?_eq (hall ▸ le_maxWord h)]
  dsimp only
  rw [hall, List.length_append, List.length_replicate]

theorem float?_scientific {x : Int} (h : ofDigits ds < 2 ^ 64) (hx : x.natAbs ≤ maxExponent) :
    float? ⟨false, ds.take 1, ds.drop 1, some (decide (x < 0), digitsOf x.natAbs)⟩ =
      scaleSigned false (ofDigits ds) (x - ((ds.length - 1 : Nat) : Int)) := by
  have hall : ofDigits (ds.take 1 ++ ds.drop 1) = ofDigits ds := congrArg ofDigits (List.take_append_drop 1 ds)
  rw [float?_eq (hall ▸ le_maxWord h)]
  dsimp only
  rw [hall, List.length_drop, ofDigits_digitsOf, if_neg (by omega)]
  by_cases hneg : x < 0
  · have hshift : -((ds.length - 1 : Nat) : Int) - (x.natAbs : Nat) = x - (ds.length - 1 : Nat) := by omega
    rw [decide_eq_true hneg, if_pos rfl, hshift]
  · have hshift : -((ds.length - 1 : Nat) : Int) + (x.natAbs : Nat) = x - (ds.length - 1 : Nat) := by omega
    rw [decide_eq_false hneg, if_neg Bool.false_ne_true, hshift]

/-- **The numeral of a decimal is read from its digits and its exponent**, or in the one layout that adds a zero from
ten times as many units. -/
theorem float?_ofDecimal {d : Nat} {p : Int} (hd : 0 < d) (hbits : d < 2 ^ 60) (hlow : -400 ≤ p) (hhigh : p ≤ 400) :
    ∃ s q, (ofDecimal false d p).float? = scaleSigned false s q ∧ 0 < s ∧ s < 2 ^ 64 ∧ -400 ≤ q ∧
      (s : ℚ) * 10 ^ q = d * 10 ^ p := by
  have hlength : (digitsOf d).length ≤ 19 := (length_digitsOf_le_iff (by decide)).2 (hbits.trans (by decide))
  have hpos : 0 < (digitsOf d).length := List.length_pos_of_ne_nil (digitsOf_ne_nil d)
  have hten : d < 10 ^ (digitsOf d).length := (length_digitsOf_le_iff hpos).1 le_rfl
  have hvalue := ofDigits_digitsOf d
  have hword : ofDigits (digitsOf d) < 2 ^ 64 := by omega
  obtain ⟨ds, hds⟩ : ∃ ds, ds = digitsOf d := ⟨_, rfl⟩
  unfold ofDecimal
  dsimp only
  rw [← hds] at hlength hpos hten hvalue hword ⊢
  split
  · -- the zero after the point is a digit too, and all digits together are seventeen at most
    rename_i hinteger
    obtain ⟨k, rfl⟩ : ∃ k : Nat, p = k := ⟨p.toNat, by omega⟩
    have hlt : d * 10 ^ (k + 1) < 2 ^ 64 := by
      calc d * 10 ^ (k + 1) < 10 ^ ds.length * 10 ^ (k + 1) := Nat.mul_lt_mul_of_pos_right hten (by positivity)
        _ = 10 ^ (ds.length + (k + 1)) := (Nat.pow_add _ _ _).symm
        _ ≤ 10 ^ 17 := Nat.pow_le_pow_right (by decide) (by omega)
        _ < 2 ^ 64 := by decide
    rw [← hvalue] at hlt hd
    refine ⟨_, -1, float?_whole hlt, by positivity, hlt, by omega, ?_⟩
    rw [hvalue, Int.toNat_natCast]
    push_cast
    rw [pow_succ, zpow_natCast, zpow_neg, zpow_one]
    ring
  · split
    · rename_i hpoint
      have hshift : -((ds.length - ((ds.length : Int) + p).toNat : Nat) : Int) = p := by omega
      exact ⟨_, _, float?_split hword, hvalue ▸ hd, hword, by omega, by rw [hvalue, hshift]⟩
    · split
      · rename_i hsmall
        have hshift : -(((-((ds.length : Int) + p)).toNat + ds.length : Nat) : Int) = p := by omega
        exact ⟨_, _, float?_zeros hword, hvalue ▸ hd, hword, by omega, by rw [hvalue, hshift]⟩
      · have hexponent : ((ds.length : Int) + p - 1).natAbs ≤ maxExponent := by
          have : maxExponent = 2147483647 := by decide
          omega
        have hshift : (ds.length : Int) + p - 1 - (ds.length - 1 : Nat) = p := by omega
        exact ⟨_, _, float?_scientific hword hexponent, hvalue ▸ hd, hword, by omega, by rw [hvalue, hshift]⟩

end Layouts

/-! ## Scaling -/

theorem mul_two_zpow_lt {a : ℚ} {b : Nat} {e : Int} (ha : a < 2 ^ b) (he : b + e ≤ 1024) : a * 2 ^ e < 2 ^ 1024 := by
  have hunit : (0 : ℚ) < 2 ^ e := zpow_pos zero_lt_two _
  calc a * 2 ^ e < 2 ^ b * 2 ^ e := mul_lt_mul_of_pos_right ha hunit
    _ = 2 ^ (b + e : Int) := by rw [zpow_add₀ (by norm_num), zpow_natCast]
    _ ≤ 2 ^ ((1024 : Nat) : Int) := zpow_le_zpow_right₀ one_le_two he
    _ = 2 ^ 1024 := zpow_natCast 2 1024

theorem Canonical.lt_two_pow {m : Nat} {e : Int} (h : Canonical m e) : (m : ℚ) * 2 ^ e < 2 ^ 1024 := by
  have hbits : (m : ℚ) < 2 ^ 53 := by exact_mod_cast h.bits
  have hhigh := h.high
  exact mul_two_zpow_lt hbits (by omega)

theorem power_bounds {k : Nat} (hk : 1 ≤ k) (hk' : k ≤ 308) : ∃ m e, Positional (power k) m e ∧ 2 ^ 52 ≤ m ∧
    2 ≤ (m : ℚ) * 2 ^ e ∧ (m : ℚ) * 2 ^ e ≤ 10 ^ k * slack := by
  obtain ⟨m, e, hx, hclose⟩ := approx_power hk'
  obtain ⟨hfull, -⟩ := full_of_close hx.canonical hclose (by decide) (one_le_pow₀ (by norm_num))
  have hbelow := hclose.below
  have habove := hclose.above
  rw [pow_one] at hbelow habove
  have hten : (10 : ℚ) ≤ 10 ^ k := by
    calc (10 : ℚ) = 10 ^ 1 := (pow_one _).symm
      _ ≤ 10 ^ k := pow_le_pow_right₀ (by norm_num) hk
  have hy : (0 : ℚ) ≤ m * 2 ^ e := mul_nonneg (Nat.cast_nonneg _) (zpow_nonneg zero_le_two _)
  have hlarge := mul_le_mul_of_nonneg_left slack_le hy
  exact ⟨m, e, hx, hfull, by linarith, habove⟩

/-- Dividing by a power of ten loses little, as long as the quotient is not too small. -/
theorem positional_div_power {x : Float} {m k : Nat} {e : Int} {c : ℚ} (hx : Positional x m e) (hk : 1 ≤ k)
    (hk' : k ≤ 308) (hc : c ≤ m * 2 ^ e) (hlow : 2 ^ (-1074 : Int) * 10 ^ k * (102 / 100) ≤ c) :
    ∃ m' e', Positional (x / power k) m' e' ∧ c ≤ (m' * 2 ^ e' + 2 ^ (-1074 : Int)) * 10 ^ k * (101 / 100) := by
  obtain ⟨m₂, e₂, hy, hfull, htwo, hpow⟩ := power_bounds hk hk'
  obtain ⟨w, hw⟩ : ∃ w : ℚ, w = m₂ * 2 ^ e₂ := ⟨_, rfl⟩
  obtain ⟨t, ht⟩ : ∃ t : ℚ, t = 2 ^ (-1074 : Int) := ⟨_, rfl⟩
  rw [← hw] at htwo hpow
  rw [← ht] at hlow ⊢
  have htpos : 0 < t := by rw [ht]; positivity
  have hwpos : 0 < w := by linarith
  have hsquare := slack_pow_le (k := 2) (by decide)
  obtain ⟨v, hv⟩ : ∃ v : ℚ, v * w = m * 2 ^ e := ⟨m * 2 ^ e / w, div_mul_cancel₀ _ hwpos.ne'⟩
  have hvlow : t ≤ v := by
    refine le_of_mul_le_mul_right ?_ hwpos
    calc t * w ≤ t * (10 ^ k * slack) := mul_le_mul_of_nonneg_left hpow htpos.le
      _ = t * 10 ^ k * slack := by ring
      _ ≤ t * 10 ^ k * (102 / 100) := mul_le_mul_of_nonneg_left (slack_le.trans (by norm_num)) (by positivity)
      _ ≤ v * w := by rw [hv]; exact hlow.trans hc
  have hvhigh : v * slack < 2 ^ 1024 := by
    calc v * slack ≤ v * w := mul_le_mul_of_nonneg_left (by linarith [slack_le]) (htpos.le.trans hvlow)
      _ = m * 2 ^ e := hv
      _ < 2 ^ 1024 := hx.canonical.lt_two_pow
  obtain ⟨m', e', hresult, hz⟩ := positional_div hx hy hfull (hw ▸ hv) (ht ▸ hvlow) hvhigh
  rw [← ht] at hz
  refine ⟨m', e', hresult, ?_⟩
  obtain ⟨z, hz'⟩ : ∃ z : ℚ, z = m' * 2 ^ e' := ⟨_, rfl⟩
  rw [← hz'] at hz ⊢
  have hzpos : 0 ≤ z := hz' ▸ mul_nonneg (Nat.cast_nonneg _) (zpow_nonneg zero_le_two _)
  calc c ≤ v * w := by rw [hv]; exact hc
    _ ≤ (z * slack + t) * (10 ^ k * slack) :=
      mul_le_mul hz hpow hwpos.le (add_nonneg (mul_nonneg hzpos slack_pos.le) htpos.le)
    _ = (z * slack ^ 2 + t * slack) * 10 ^ k := by ring
    _ ≤ (z * (101 / 100) + t * (101 / 100)) * 10 ^ k := by
      have hz₂ := mul_le_mul_of_nonneg_left hsquare hzpos
      have ht₂ := mul_le_mul_of_nonneg_left slack_le htpos.le
      exact mul_le_mul_of_nonneg_right (by linarith) (by positivity)
    _ = (z + t) * 10 ^ k * (101 / 100) := by ring

theorem positional_significand {s : Nat} (hs : 0 < s) (hbits : s < 2 ^ 64) :
    ∃ m e, Positional (Float.ofScientific s false 0) m e ∧ (s : ℚ) * (100 / 101) ≤ m * 2 ^ e := by
  obtain ⟨m, e, hx, hclose⟩ := approx_ofNat hs hbits
  refine ⟨m, e, hx, ?_⟩
  have hy : (0 : ℚ) ≤ m * 2 ^ e := by positivity
  have := mul_le_mul_of_nonneg_left (slack_pow_le (k := 2) (by decide)) hy
  have := hclose.below
  linarith

theorem le_308_of_lt {a : ℚ} {q : Int} (ha : 1 ≤ a) (h : a * 10 ^ q < 2 ^ 1024) : q ≤ 308 := by
  by_contra hq
  have hnat : 2 ^ 1024 < 10 ^ 309 := by decide +kernel
  have hlarge : (2 : ℚ) ^ 1024 < 10 ^ 309 := by exact_mod_cast hnat
  have hle : (10 : ℚ) ^ 309 ≤ a * 10 ^ q := by
    calc (10 : ℚ) ^ 309 = 10 ^ ((309 : Nat) : Int) := (zpow_natCast 10 309).symm
      _ ≤ 10 ^ q := zpow_le_zpow_right₀ (by norm_num) (by omega)
      _ ≤ a * 10 ^ q := le_mul_of_one_le_left (by positivity) ha
  exact absurd (hlarge.trans_le hle) h.not_gt

section Scaled

variable {s : Nat} {q : Int}

theorem scale_of_nonneg (hs : 0 < s) (hbits : s < 2 ^ 64) (hq : 0 ≤ q)
    (hhigh : (s : ℚ) * 10 ^ q * slack ^ 4 < 2 ^ 1024) :
    ∃ y, scaleSigned false s q = some y ∧ 0.0 < y := by
  have hs' : (1 : ℚ) ≤ s := by exact_mod_cast hs
  have hfour : (1 : ℚ) ≤ s * slack ^ 4 := one_le_mul_of_one_le_of_one_le hs' (one_le_pow₀ one_le_slack)
  have hle := le_308_of_lt hfour (mul_right_comm (s : ℚ) _ _ ▸ hhigh)
  obtain ⟨k, rfl⟩ : ∃ k : Nat, q = k := ⟨q.toNat, by omega⟩
  rw [zpow_natCast] at hhigh
  obtain ⟨m, e, hresult, -⟩ := approx_mul (approx_ofNat hs hbits) (approx_power (n := k) (by omega)) hs'
    (one_le_pow₀ (by norm_num)) (by decide) (by decide) hhigh
  refine ⟨_, ?_, hresult.zero_lt⟩
  have hscale : scale 5 (Float.ofScientific s false 0) k = some (Float.ofScientific s false 0 * power k) := by
    have hfinite := hresult.isInf
    rw [scale, Int.natAbs_natCast, if_pos (by omega), if_pos (Int.natCast_nonneg k)]
    dsimp only
    rw [hfinite]
    rfl
  rw [scaleSigned, hscale]
  rfl

theorem le_of_le_mul_zpow_neg {a t : ℚ} {k : Nat} (h : t ≤ a * 10 ^ (-(k : Int))) : t * 10 ^ k ≤ a := by
  have hten : (10 : ℚ) ^ k ≠ 0 := by positivity
  have hmul := mul_le_mul_of_nonneg_right h (by positivity : (0 : ℚ) ≤ 10 ^ k)
  rwa [zpow_neg, zpow_natCast, mul_assoc, inv_mul_cancel₀ hten, mul_one] at hmul

/-- The smallest float is tiny even next to the largest power of ten. -/
theorem smallest_mul_power_le : (2 : ℚ) ^ (-1074 : Int) * 10 ^ 308 ≤ 1 / 1000 := by
  have hnat : 10 ^ 308 * 1000 ≤ 2 ^ 1074 := by decide +kernel
  have hcast : (10 : ℚ) ^ 308 * 1000 ≤ 2 ^ 1074 := by exact_mod_cast hnat
  have hneg : (2 : ℚ) ^ (-1074 : Int) = (2 ^ 1074)⁻¹ := by
    rw [zpow_neg]
    exact congrArg _ (zpow_natCast 2 1074)
  obtain ⟨T, hT⟩ : ∃ T : ℚ, T = 10 ^ 308 := ⟨_, rfl⟩
  obtain ⟨B, hB⟩ : ∃ B : ℚ, B = 2 ^ 1074 := ⟨_, rfl⟩
  have hpos : 0 < B := by rw [hB]; positivity
  rw [hneg, ← hT, ← hB, inv_mul_le_iff₀ hpos]
  rw [← hT, ← hB] at hcast
  linarith only [hcast]

theorem scale_of_neg (hs : 0 < s) (hbits : s < 2 ^ 64) (hneg : q < 0) (hq : -308 ≤ q)
    (hlow : 3 / 2 * 2 ^ (-1074 : Int) ≤ (s : ℚ) * 10 ^ q) :
    ∃ y, scaleSigned false s q = some y ∧ 0.0 < y := by
  obtain ⟨k, rfl⟩ : ∃ k : Nat, q = -k := ⟨q.natAbs, by omega⟩
  obtain ⟨m, e, hx, hc⟩ := positional_significand hs hbits
  have hbelow := le_of_le_mul_zpow_neg hlow
  have hsmall : 2 ^ (-1074 : Int) * 10 ^ k * (102 / 100) ≤ (s : ℚ) * (100 / 101) := by
    generalize (2 : ℚ) ^ (-1074 : Int) = t at hbelow ⊢
    linarith
  obtain ⟨m', e', hresult, -⟩ := positional_div_power hx (by omega) (by omega) hc hsmall
  refine ⟨_, ?_, hresult.zero_lt⟩
  have hscale : scale 5 (Float.ofScientific s false 0) (-k) = some (Float.ofScientific s false 0 / power k) := by
    rw [scale, Int.natAbs_neg, Int.natAbs_natCast, if_pos (by omega), if_neg (by omega)]
  rw [scaleSigned, hscale]
  rfl

theorem le_of_division {a y t T : ℚ} (ha : 1 ≤ a) (hT : 0 < T) (htiny : t * T ≤ 1 / 1000)
    (h : a * (100 / 101) ≤ (y + t) * T * (101 / 100)) : a * T⁻¹ * (97 / 100) ≤ y := by
  have hcancel : a * T⁻¹ * T = a := inv_mul_cancel_right₀ hT.ne' a
  refine le_of_mul_le_mul_right ?_ hT
  linarith

theorem scale_of_lt (hs : 0 < s) (hbits : s < 2 ^ 64) (hlt : q < -308) (hq : -500 ≤ q)
    (hlow : 3 / 2 * 2 ^ (-1074 : Int) ≤ (s : ℚ) * 10 ^ q) :
    ∃ y, scaleSigned false s q = some y ∧ 0.0 < y := by
  obtain ⟨k, rfl⟩ : ∃ k : Nat, q = -308 - k := ⟨(-308 - q).toNat, by omega⟩
  obtain ⟨m, e, hx, hc⟩ := positional_significand hs hbits
  have hs' : (1 : ℚ) ≤ s := by exact_mod_cast hs
  have htiny := smallest_mul_power_le
  have hsplit : (10 : ℚ) ^ (-308 - k : Int) = (10 ^ 308)⁻¹ * 10 ^ (-(k : Int)) := by
    rw [sub_eq_add_neg, zpow_add₀ (by norm_num), zpow_neg]
    exact congrArg (·⁻¹ * _) (zpow_natCast 10 308)
  rw [hsplit, ← mul_assoc] at hlow
  have hbelow := le_of_le_mul_zpow_neg hlow
  have hfirst : 2 ^ (-1074 : Int) * 10 ^ 308 * (102 / 100) ≤ (s : ℚ) * (100 / 101) := by
    generalize (2 : ℚ) ^ (-1074 : Int) * 10 ^ 308 = v at htiny ⊢
    linarith
  -- the first quotient is so large that it keeps 97 parts of 100, and the second may be as small as one unit
  obtain ⟨m₁, e₁, hx₁, hc₁⟩ := positional_div_power hx (by decide) (by decide) hc hfirst
  have hrest := le_of_division hs' (by positivity) htiny hc₁
  have hsecond : 2 ^ (-1074 : Int) * 10 ^ k * (102 / 100) ≤ (s : ℚ) * (10 ^ 308)⁻¹ * (97 / 100) := by
    have hpos : 0 ≤ (s : ℚ) * (10 ^ 308)⁻¹ := by positivity
    generalize (2 : ℚ) ^ (-1074 : Int) = t at hbelow ⊢
    generalize (s : ℚ) * (10 ^ 308)⁻¹ = r at hbelow hpos ⊢
    linarith only [hbelow, hpos]
  obtain ⟨m₂, e₂, hresult, -⟩ := positional_div_power hx₁ (by omega) (by omega) hrest hsecond
  refine ⟨_, ?_, hresult.zero_lt⟩
  have hscale : scale 5 (Float.ofScientific s false 0) (-308 - k) =
      some (Float.ofScientific s false 0 / power 308 / power k) := by
    have hagain : (-308 - k : Int) + 308 = -k := by omega
    rw [scale, if_neg (by omega), hx.beq_zero, if_neg (by decide), if_neg (by omega), hagain, scale, Int.natAbs_neg,
      Int.natAbs_natCast, if_pos (by omega), if_neg (by omega)]
  rw [scaleSigned, hscale]
  rfl

/-- **A decimal that is a little inside the range is read as a positive float.** -/
theorem scale_spec (hs : 0 < s) (hbits : s < 2 ^ 64) (hq : -500 ≤ q)
    (hlow : 3 / 2 * 2 ^ (-1074 : Int) ≤ (s : ℚ) * 10 ^ q) (hhigh : (s : ℚ) * 10 ^ q * slack ^ 4 < 2 ^ 1024) :
    ∃ y, scaleSigned false s q = some y ∧ 0.0 < y := by
  by_cases hnonneg : 0 ≤ q
  · exact scale_of_nonneg hs hbits hnonneg hhigh
  · by_cases honce : -308 ≤ q
    · exact scale_of_neg hs hbits (by omega) honce hlow
    · exact scale_of_lt hs hbits (by omega) hq hlow

end Scaled

/-! ## Reading back -/

section Shortest

variable {m d : Nat} {e p : Int}

/-- Up to the last eight floats, what is half an ulp above a float is below the range by more than reading can lose. -/
theorem Near.lt_range (hcanonical : Canonical m e) (h : Near m e d p) (hm : e ≤ 970 ∨ m + 9 ≤ 2 ^ 53) :
    (d : ℚ) * 10 ^ p * slack ^ 4 < 2 ^ 1024 := by
  have hslack : (0 : ℚ) ≤ slack ^ 4 := pow_nonneg slack_pos.le 4
  have hle : (d : ℚ) * 10 ^ p * slack ^ 4 ≤ (m + 1 / 2) * slack ^ 4 * 2 ^ e := by
    calc (d : ℚ) * 10 ^ p * slack ^ 4 ≤ (m + 1 / 2) * 2 ^ e * slack ^ 4 := mul_le_mul_of_nonneg_right h.above hslack
      _ = (m + 1 / 2) * slack ^ 4 * 2 ^ e := by ring
  have hhigh := hcanonical.high
  refine hle.trans_lt ?_
  rcases hm with hm | hm
  · have hbits : (m : ℚ) + 1 ≤ 2 ^ 53 := by exact_mod_cast hcanonical.bits
    have hlt : ((m : ℚ) + 1 / 2) * slack ^ 4 < 2 ^ 54 := by
      calc ((m : ℚ) + 1 / 2) * slack ^ 4 ≤ 2 ^ 53 * (101 / 100) :=
            mul_le_mul (by linarith) (slack_pow_le (by decide)) hslack (by positivity)
        _ < 2 ^ 54 := by norm_num
    exact mul_two_zpow_lt hlt (by omega)
  · have hbits : (m : ℚ) + 9 ≤ 2 ^ 53 := by exact_mod_cast hm
    have hlt : ((m : ℚ) + 1 / 2) * slack ^ 4 < 2 ^ 53 := by
      calc ((m : ℚ) + 1 / 2) * slack ^ 4 ≤ (2 ^ 53 - 17 / 2) * slack ^ 4 :=
            mul_le_mul_of_nonneg_right (by linarith) hslack
        _ < 2 ^ 53 := by unfold slack; norm_num
    exact mul_two_zpow_lt hlt (by omega)

/-- From the second float on, the lower end of the interval of a float is not below the smallest one. -/
theorem Near.smallest_le (hcanonical : Canonical m e) (h : Near m e d p) (hm : 2 ≤ m) :
    3 / 2 * (2 : ℚ) ^ (-1074 : Int) ≤ d * 10 ^ p := by
  have hm' : (2 : ℚ) ≤ m := by exact_mod_cast hm
  calc 3 / 2 * (2 : ℚ) ^ (-1074 : Int) ≤ (m - 1 / 2) * 2 ^ e :=
        mul_le_mul (by linarith) (zpow_le_zpow_right₀ one_le_two hcanonical.low) (zpow_nonneg zero_le_two _)
          (by linarith)
    _ ≤ d * 10 ^ p := h.below

theorem Near.exponent_le (hcanonical : Canonical m e) (h : Near m e d p) : p ≤ 308 := by
  have hd : (1 : ℚ) ≤ d := by exact_mod_cast h.pos hcanonical.pos
  have hbits : (m : ℚ) + 1 ≤ 2 ^ 53 := by exact_mod_cast hcanonical.bits
  have hhigh := hcanonical.high
  have hrange : ((m : ℚ) + 1 / 2) * 2 ^ e < 2 ^ 1024 := mul_two_zpow_lt (b := 53) (by linarith) (by omega)
  exact le_308_of_lt hd (h.above.trans_lt hrange)

/-- The numeral of a significand and an exponent is read as a positive number. -/
def Rereads (m : Nat) (e : Int) : Bool :=
  (ofDecimal false (shortest m e .even).1 (shortest m e .even).2).float?.any fun y => decide (0.0 < y)

theorem rereads_smallest : Rereads 1 (-1074) = true := by decide +kernel

theorem rereads_largest : ∀ j < 8, Rereads (2 ^ 53 - 8 + j) 971 = true := by decide +kernel

theorem rereads (hcanonical : Canonical m e) : Rereads m e = true := by
  obtain ⟨d, p, hshortest, hd, hbits, hp, hnear⟩ := shortest_spec hcanonical .even
  have hhigh := hcanonical.high
  have hm := hcanonical.bits
  -- the error of reading is bounded by four ulps, and the floats at the ends are nearer to them than that
  by_cases hsmallest : m = 1
  · obtain rfl : e = -1074 := hcanonical.full.resolve_left (by omega)
    rw [hsmallest]
    exact rereads_smallest
  · by_cases hlargest : e ≤ 970 ∨ m + 9 ≤ 2 ^ 53
    · obtain ⟨s, q, hread, hs, hs', hq, hvalue⟩ := float?_ofDecimal hd hbits (by omega)
        ((hnear.exponent_le hcanonical).trans (by decide))
      have hsmall := hnear.smallest_le hcanonical (by have := hcanonical.pos; omega)
      have hlarge := hnear.lt_range hcanonical hlargest
      rw [← hvalue] at hsmall hlarge
      obtain ⟨y, hscale, hy⟩ := scale_spec hs hs' (by omega) hsmall hlarge
      unfold Rereads
      rw [hshortest, hread, hscale]
      exact decide_eq_true hy
    · obtain rfl : e = 971 := by omega
      obtain ⟨j, hj⟩ : ∃ j, m = 2 ^ 53 - 8 + j := ⟨m - (2 ^ 53 - 8), by omega⟩
      rw [hj]
      exact rereads_largest j (by omega)

end Shortest

/-- **A positive number that is not infinite is written as a numeral that is read as a positive number.** -/
theorem float?_ofFloat? {x : Float} {m : Nat} {e : Int} (h : Positional x m e) :
    ∃ n y, ofFloat? x = some n ∧ n.float? = some y ∧ 0.0 < y := by
  have hread := rereads h.canonical
  obtain ⟨y, hy, hpos⟩ := (Option.any_eq_true _ _).1 hread
  exact ⟨_, y, ofFloat?_eq h.parts rfl, hy, of_decide_eq_true hpos⟩

end FileGraph.Decimal
