import FileGraph.Decimal.Shortest
import Mathlib.Algebra.Order.Field.Power
import Mathlib.Algebra.Order.Field.Rat
import Mathlib.Data.Rat.Cast.Order
import Mathlib.Tactic.FieldSimp
import Mathlib.Tactic.Linarith
import Mathlib.Tactic.LinearCombination
import Mathlib.Tactic.NormNum
import Mathlib.Tactic.Positivity
import Mathlib.Tactic.Ring
/-!
# Shortest — the digits that are found are near the number

The search for the coarsest grid ends with a multiple of the grid (`coarsest_spec`): at the last grid that is looked at
the steps are no longer than a quarter of an ulp.  What is found is half an ulp away at most, has fewer than sixty bits
and is not zero (`shortest_spec`).
-/
namespace FileGraph.Decimal

/-- The significands and exponents of positive floating-point numbers. -/
structure Canonical (m : Nat) (e : Int) : Prop where
  pos  : 0 < m
  bits : m < 2 ^ 53
  low  : -1074 ≤ e
  high : e ≤ 971
  full : 2 ^ 52 ≤ m ∨ e = -1074

/-- The decimal `d · 10 ^ p` is half an ulp from `m · 2 ^ e` at most. -/
structure Near (m : Nat) (e : Int) (d : Nat) (p : Int) : Prop where
  below : ((m : ℚ) - 1 / 2) * 2 ^ e ≤ d * 10 ^ p
  above : (d : ℚ) * 10 ^ p ≤ (m + 1 / 2) * 2 ^ e

/-! ## Powers -/

theorem zpow_eq_div {b : ℚ} (hb : b ≠ 0) (e : Int) : b ^ e = b ^ e.toNat / b ^ (-e).toNat := by
  rw [← zpow_natCast b e.toNat, ← zpow_natCast b (-e).toNat, ← zpow_sub₀ hb]
  congr 1
  omega

/-- A power of ten is below a power of two if its exponent is so much smaller: `10 ^ 3 ≤ 2 ^ 10` and
`10 ^ -10 ≤ 2 ^ -33`. -/
theorem ten_zpow_le {p e : Int} (hpos : 0 ≤ p → 10 * ((p + 2) / 3) ≤ e) (hneg : p < 0 → -(33 * (-p / 10)) ≤ e) :
    (10 : ℚ) ^ p ≤ 2 ^ e := by
  by_cases hp : 0 ≤ p
  · obtain ⟨k, hk⟩ : ∃ k : Nat, (k : Int) = (p + 2) / 3 := ⟨((p + 2) / 3).toNat, by omega⟩
    have he := hpos hp
    calc (10 : ℚ) ^ p ≤ 10 ^ (3 * (k : Int)) := zpow_le_zpow_right₀ (by norm_num) (by omega)
      _ = 1000 ^ k := by rw [zpow_mul, zpow_natCast]; norm_num
      _ ≤ 1024 ^ k := pow_le_pow_left₀ (by norm_num) (by norm_num) k
      _ = 2 ^ (10 * (k : Int)) := by rw [zpow_mul, zpow_natCast]; norm_num
      _ ≤ 2 ^ e := zpow_le_zpow_right₀ (by norm_num) (by omega)
  · obtain ⟨k, hk⟩ : ∃ k : Nat, (k : Int) = -p / 10 := ⟨(-p / 10).toNat, by omega⟩
    have he := hneg (by omega)
    have hten : ((10 : ℚ) ^ (-10 : Int)) ≤ 2 ^ (-33 : Int) := by norm_num
    calc (10 : ℚ) ^ p ≤ 10 ^ (-10 * (k : Int)) := zpow_le_zpow_right₀ (by norm_num) (by omega)
      _ = (10 ^ (-10 : Int)) ^ k := by rw [zpow_mul, zpow_natCast]
      _ ≤ (2 ^ (-33 : Int)) ^ k := pow_le_pow_left₀ (by positivity) hten k
      _ = 2 ^ (-33 * (k : Int)) := by rw [zpow_mul, zpow_natCast]
      _ ≤ 2 ^ e := zpow_le_zpow_right₀ (by norm_num) (by omega)

theorem two_zpow_le {p e : Int} (hpos : 0 ≤ p → e ≤ 33 * (p / 10)) (hneg : p < 0 → e ≤ -(10 * ((-p + 2) / 3))) :
    (2 : ℚ) ^ e ≤ 10 ^ p := by
  have h := ten_zpow_le (p := -p) (e := -e) (fun h => ?_) fun h => ?_
  · rw [zpow_neg, zpow_neg] at h
    exact (inv_le_inv₀ (by positivity) (by positivity)).1 h
  · by_cases hp : p = 0
    · have := hpos (by omega)
      omega
    · have := hneg (by omega)
      omega
  · have := hpos (by omega)
    rw [neg_neg]
    omega

/-! ## One grid -/

/-- The two naturals of `scaled` are a positive fraction with the value of `2 ^ e / 10 ^ p`. -/
theorem scaled_spec (e p : Int) : ∃ a b : Nat, scaled 1 e (-p) = (a, b) ∧ 0 < a ∧ 0 < b ∧
    (a : ℚ) * 10 ^ p = b * 2 ^ e := by
  refine ⟨2 ^ e.toNat * 10 ^ (-p).toNat, 2 ^ (-e).toNat * 10 ^ p.toNat, ?_, by positivity, by positivity, ?_⟩
  · unfold scaled
    rw [Nat.one_mul, neg_neg]
    rfl
  · rw [zpow_eq_div (by norm_num : (10 : ℚ) ≠ 0) p, zpow_eq_div (by norm_num : (2 : ℚ) ≠ 0) e]
    push_cast
    field_simp

theorem roundDiv_eq (num den : Nat) (tie : Tie) :
    roundDiv num den tie = num / den ∨ roundDiv num den tie = num / den + 1 := by
  unfold roundDiv
  dsimp only
  split
  · exact .inl rfl
  · split
    · exact .inr rfl
    · split
      · exact .inr rfl
      · split
        · exact .inl rfl
        · exact .inr rfl

/-- The order that makes a neighbourhood one. -/
structure Neighbourhood.Ordered (n : Neighbourhood) : Prop where
  pos   : 0 < n.low
  below : n.low < n.value
  above : n.value < n.high

theorem ordered_neighbourhood {m : Nat} (hm : 0 < m) (e : Int) : (neighbourhood m e).Ordered := by
  unfold neighbourhood
  split
  · exact ⟨by dsimp only; omega, by dsimp only; omega, by dsimp only; omega⟩
  · exact ⟨by dsimp only; omega, by dsimp only; omega, by dsimp only; omega⟩

theorem four_mul_le_low {m : Nat} (hm : 0 < m) (e : Int) : (4 * m - 2 : ℚ) ≤ (neighbourhood m e).low := by
  have hle : 4 * m ≤ (neighbourhood m e).low + 2 := by
    unfold neighbourhood
    dsimp only
    split
    · omega
    · omega
  have hle' : (4 * m : ℚ) ≤ (neighbourhood m e).low + 2 := by exact_mod_cast hle
  linarith

section Grid

variable {n : Neighbourhood} {e p : Int} {tie : Tie} {a b : Nat}

/-- What is found on a grid lies in the neighbourhood. -/
theorem nearestOnGrid?_mem (hab : scaled 1 (e - 2) (-p) = (a, b)) {c : Nat}
    (h : nearestOnGrid? n e p tie = some c) : n.low * a ≤ c * b ∧ c * b ≤ n.high * a := by
  unfold nearestOnGrid? at h
  rw [hab] at h
  dsimp only at h
  have hinside : ∀ d, (if n.inclusive = true then decide (n.low * a ≤ d * b) && decide (d * b ≤ n.high * a)
      else decide (n.low * a < d * b) && decide (d * b < n.high * a)) = true →
        n.low * a ≤ d * b ∧ d * b ≤ n.high * a := by
    intro d hd
    split at hd
    · simpa using hd
    · rw [Bool.and_eq_true, decide_eq_true_eq, decide_eq_true_eq] at hd
      exact ⟨Nat.le_of_lt hd.1, Nat.le_of_lt hd.2⟩
  split at h
  · rename_i hlow hhigh
    obtain rfl := Option.some.inj h
    rcases roundDiv_eq (n.value * a) b tie with hround | hround
    · rw [hround]
      exact hinside _ hlow
    · rw [hround]
      exact hinside _ hhigh
  · rename_i hlow _
    obtain rfl := Option.some.inj h
    exact hinside _ hlow
  · rename_i _ hhigh
    obtain rfl := Option.some.inj h
    exact hinside _ hhigh
  · cases h

/-- A grid no coarser than the unit of the neighbourhood has a multiple in it. -/
theorem isSome_nearestOnGrid? (hn : n.Ordered) (hab : scaled 1 (e - 2) (-p) = (a, b)) (hb : 0 < b) (hba : b ≤ a) :
    (nearestOnGrid? n e p tie).isSome := by
  obtain ⟨c, hc⟩ : ∃ c, c = n.value * a / b := ⟨_, rfl⟩
  have hle : c * b ≤ n.value * a := hc ▸ Nat.div_mul_le_self _ _
  have hlt : n.value * a < c * b + b := by
    rw [hc]
    exact Nat.lt_div_mul_add hb
  have hlow : n.low * a + a ≤ n.value * a := by
    rw [← Nat.succ_mul]
    exact Nat.mul_le_mul_right _ hn.below
  have hhigh : n.value * a < n.high * a := Nat.mul_lt_mul_of_pos_right hn.above (by omega)
  have hinside : (if n.inclusive = true then decide (n.low * a ≤ c * b) && decide (c * b ≤ n.high * a)
      else decide (n.low * a < c * b) && decide (c * b < n.high * a)) = true := by
    have hlow' : n.low * a < c * b := by omega
    have hhigh' : c * b < n.high * a := by omega
    simp [hlow', hhigh', Nat.le_of_lt hlow', Nat.le_of_lt hhigh']
  unfold nearestOnGrid?
  rw [hab]
  dsimp only
  rw [← hc, hinside]
  split
  · rfl
  · rfl
  · rfl
  · rename_i h _
    cases h

theorem nearestOnGrid?_bounds {c : Nat} (h : nearestOnGrid? n e p tie = some c) :
    (n.low : ℚ) * 2 ^ (e - 2) ≤ c * 10 ^ p ∧ (c : ℚ) * 10 ^ p ≤ n.high * 2 ^ (e - 2) := by
  obtain ⟨a, b, hab, ha, hb, heq⟩ := scaled_spec (e - 2) p
  obtain ⟨hlow, hhigh⟩ := nearestOnGrid?_mem hab h
  have hb' : (0 : ℚ) < b := Nat.cast_pos.2 hb
  have hten : (0 : ℚ) < 10 ^ p := by positivity
  have hvalue : ∀ k : Nat, (k : ℚ) * 2 ^ (e - 2) * b = (k * a : Nat) * 10 ^ p := by
    intro k
    push_cast
    linear_combination (-(k : ℚ)) * heq
  have hmul : (c : ℚ) * 10 ^ p * b = (c * b : Nat) * 10 ^ p := by
    push_cast
    ring
  constructor
  · refine le_of_mul_le_mul_right ?_ hb'
    rw [hvalue, hmul]
    exact mul_le_mul_of_nonneg_right (Nat.cast_le.2 hlow) hten.le
  · refine le_of_mul_le_mul_right ?_ hb'
    rw [hvalue, hmul]
    exact mul_le_mul_of_nonneg_right (Nat.cast_le.2 hhigh) hten.le

theorem isSome_nearestOnGrid?_of_le (hn : n.Ordered) (h : (10 : ℚ) ^ p ≤ 2 ^ (e - 2)) :
    (nearestOnGrid? n e p tie).isSome := by
  obtain ⟨a, b, hab, ha, hb, heq⟩ := scaled_spec (e - 2) p
  refine isSome_nearestOnGrid? hn hab hb ?_
  have hten : (0 : ℚ) < 10 ^ p := by positivity
  have hle : (b : ℚ) * 10 ^ p ≤ a * 10 ^ p := by
    rw [heq]
    exact mul_le_mul_of_nonneg_left h (Nat.cast_nonneg b)
  exact_mod_cast le_of_mul_le_mul_right hle hten

end Grid

/-! ## The search -/

/-- The search ends with the coarsest grid that has a multiple in the neighbourhood, if the last grid has one. -/
theorem coarsest_spec {n : Neighbourhood} {e : Int} {tie : Tie} : ∀ (steps : Nat) (p : Int),
    (nearestOnGrid? n e (p - steps) tie).isSome →
      ∃ c q, coarsest n e tie (steps + 1) p = (c, q) ∧ nearestOnGrid? n e q tie = some c ∧
        p - steps ≤ q ∧ q ≤ p ∧ (q = p ∨ nearestOnGrid? n e (q + 1) tie = none)
  | steps, p, h => by
    rw [coarsest]
    cases hgrid : nearestOnGrid? n e p tie with
    | some c => exact ⟨c, p, rfl, hgrid, by omega, le_rfl, .inl rfl⟩
    | none =>
      cases steps with
      | zero =>
        rw [Int.natCast_zero, sub_zero, hgrid] at h
        cases h
      | succ steps =>
        have hlast : p - (steps + 1 : Nat) = p - 1 - steps := by push_cast; ring
        rw [hlast] at h
        -- the grid before the first one of the rest is this one, which has no multiple
        obtain ⟨c, q, heq, hfound, hlow, hhigh, hcoarser⟩ := coarsest_spec steps (p - 1) h
        refine ⟨c, q, heq, hfound, by omega, by omega, .inr ?_⟩
        rcases hcoarser with rfl | hcoarser
        · rw [sub_add_cancel]
          exact hgrid
        · exact hcoarser

theorem log2_of_canonical {m : Nat} {e : Int} (h : Canonical m e) : m.log2 ≤ 52 ∧ (m.log2 = 52 ∨ e = -1074) := by
  have hne : m ≠ 0 := Nat.ne_of_gt h.pos
  have hlt : m.log2 < 53 := (Nat.log2_lt hne).2 h.bits
  refine ⟨by omega, ?_⟩
  rcases h.full with hfull | he
  · have hle : 52 ≤ m.log2 := (Nat.le_log2 hne).2 hfull
    exact .inl (by omega)
  · exact .inr he

section Search

variable {m : Nat} {e start : Int}

theorem last_grid (h : Canonical m e) (hstart : start = ((Nat.log2 m : Int) + 1 + e) * 30103 / 100000 + 1) :
    (10 : ℚ) ^ (start - 39) ≤ 2 ^ (e - 2) := by
  obtain ⟨hlog, -⟩ := log2_of_canonical h
  have hlow := h.low
  have hhigh := h.high
  refine ten_zpow_le ?_ ?_
  · intro _
    omega
  · intro _
    omega

/-- One above the first grid of the search the steps are longer than a quarter of an ulp. -/
theorem first_grid (h : Canonical m e) (hstart : start = ((Nat.log2 m : Int) + 1 + e) * 30103 / 100000 + 1) :
    (2 : ℚ) ^ (e - 2) ≤ 10 ^ (start + 1) := by
  have hlow := h.low
  have hhigh := h.high
  obtain ⟨-, hfull | he⟩ := log2_of_canonical h
  · refine two_zpow_le ?_ ?_
    · intro _
      omega
    · intro _
      omega
  · -- here the significand may have a single bit, and no estimate of the logarithm is good enough
    have hfirst : -322 ≤ start + 1 := by omega
    have hnat : 10 ^ 322 ≤ 2 ^ 1076 := by decide +kernel
    have hrat : (10 : ℚ) ^ 322 ≤ 2 ^ 1076 := by exact_mod_cast hnat
    calc (2 : ℚ) ^ (e - 2) = 2 ^ (-(1076 : Nat) : Int) := by rw [he]; rfl
      _ ≤ 10 ^ (-(322 : Nat) : Int) := by
        rw [zpow_neg, zpow_neg, zpow_natCast, zpow_natCast]
        exact inv_anti₀ (by positivity) hrat
      _ ≤ 10 ^ (start + 1) := zpow_le_zpow_right₀ (by norm_num) hfirst

theorem two_zpow_eq_four_mul (e : Int) : (2 : ℚ) ^ e = 4 * 2 ^ (e - 2) := by
  rw [zpow_sub₀ (by norm_num)]
  ring

variable {d : Nat} {p : Int}

theorem near_of_bounds (hm : 0 < m) (hbelow : ((neighbourhood m e).low : ℚ) * 2 ^ (e - 2) ≤ d * 10 ^ p)
    (habove : (d : ℚ) * 10 ^ p ≤ (neighbourhood m e).high * 2 ^ (e - 2)) : Near m e d p := by
  have hunit : (0 : ℚ) < 2 ^ (e - 2) := by positivity
  have hlow := mul_le_mul_of_nonneg_right (four_mul_le_low hm e) hunit.le
  have hhigh : ((neighbourhood m e).high : ℚ) = 4 * m + 2 := by
    unfold neighbourhood
    push_cast
    rfl
  rw [hhigh] at habove
  constructor
  · rw [two_zpow_eq_four_mul]
    linarith
  · rw [two_zpow_eq_four_mul]
    linarith

theorem Near.pos (hm : 0 < m) (h : Near m e d p) : 0 < d := by
  refine Nat.pos_of_ne_zero fun hd => ?_
  have hbelow := h.below
  have hm' : (1 : ℚ) ≤ m := by exact_mod_cast hm
  have hunit : (0 : ℚ) < 2 ^ e := by positivity
  have := mul_pos (show (0 : ℚ) < m - 1 / 2 by linarith) hunit
  rw [hd, Nat.cast_zero, zero_mul] at hbelow
  linarith

theorem Near.lt_two_pow (h : Near m e d p) (hm : m < 2 ^ 53) (hgrid : (2 : ℚ) ^ (e - 2) ≤ 10 ^ (p + 1)) :
    d < 2 ^ 60 := by
  have hten : (10 : ℚ) ^ (p + 1) = 10 * 10 ^ p := by
    rw [zpow_add₀ (by norm_num), zpow_one]
    ring
  have hm' : (m : ℚ) < 2 ^ 53 := by exact_mod_cast hm
  have hstep : (0 : ℚ) < 10 ^ p := by positivity
  have hle : (d : ℚ) * 10 ^ p ≤ (4 * m + 2) * 10 * 10 ^ p := by
    calc (d : ℚ) * 10 ^ p ≤ (m + 1 / 2) * 2 ^ e := h.above
      _ = (4 * m + 2) * 2 ^ (e - 2) := by rw [two_zpow_eq_four_mul]; ring
      _ ≤ (4 * m + 2) * 10 ^ (p + 1) := mul_le_mul_of_nonneg_left hgrid (by positivity)
      _ = (4 * m + 2) * 10 * 10 ^ p := by rw [hten]; ring
  have hd : (d : ℚ) ≤ (4 * m + 2) * 10 := le_of_mul_le_mul_right hle hstep
  have hlt : (d : ℚ) < 2 ^ 60 := by linarith
  exact_mod_cast hlt

end Search

/-- **The shortest decimal is near the number**, has at most sixty bits and is not zero. -/
theorem shortest_spec {m : Nat} {e : Int} (h : Canonical m e) (tie : Tie) :
    ∃ d p, shortest m e tie = (d, p) ∧ 0 < d ∧ d < 2 ^ 60 ∧ -365 ≤ p ∧ Near m e d p := by
  have hordered := ordered_neighbourhood h.pos e
  obtain ⟨start, hstart⟩ : ∃ p : Int, p = ((Nat.log2 m : Int) + 1 + e) * 30103 / 100000 + 1 := ⟨_, rfl⟩
  have hlast : (nearestOnGrid? (neighbourhood m e) e (start - (39 : Nat)) tie).isSome :=
    isSome_nearestOnGrid?_of_le hordered (last_grid h hstart)
  obtain ⟨d, p, hsearch, hfound, hfirst, -, hcoarser⟩ := coarsest_spec 39 start hlast
  have hshortest : shortest m e tie = (d, p) := by
    unfold shortest
    rw [if_neg (Nat.ne_of_gt h.pos), ← hsearch, hstart]
  obtain ⟨hbelow, habove⟩ := nearestOnGrid?_bounds hfound
  have hnear : Near m e d p := near_of_bounds h.pos hbelow habove
  have hcoarse : (2 : ℚ) ^ (e - 2) ≤ 10 ^ (p + 1) := by
    rcases hcoarser with rfl | hcoarser
    · exact first_grid h hstart
    · refine le_of_not_ge fun hle => ?_
      have hsome : (nearestOnGrid? (neighbourhood m e) e (p + 1) tie).isSome :=
        isSome_nearestOnGrid?_of_le hordered hle
      rw [hcoarser] at hsome
      cases hsome
  have hlow : -365 ≤ p := by
    have := h.low
    omega
  exact ⟨d, p, hshortest, hnear.pos h.pos, hnear.lt_two_pow h.bits hcoarse, hlow, hnear⟩

end FileGraph.Decimal
