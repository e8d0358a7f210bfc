import FileGraph.Decimal.Numeral
import Mathlib.Algebra.Ring.Nat
import Mathlib.Tactic.Ring
/-!
# Digits — a number and its decimal digits

The digits of a number are below ten, do not begin with zero unless they are the one digit of zero, and give the number
back (`ofDigits_digitsOf`).  Digits that follow others count as much as their number says (`ofDigits_append`).
-/
namespace FileGraph.Decimal

theorem toNat_digitChar_sub {d : Nat} (h : d < 10) : d.digitChar.toNat - '0'.toNat = d :=
  Nat.toNat_digitChar_sub_48_of_lt_ten h

theorem digitsOf_of_lt {n : Nat} (h : n < 10) : digitsOf n = [n] := by
  rw [digitsOf, Nat.toDigits_of_lt_base h, List.map_singleton, toNat_digitChar_sub h]

theorem digitsOf_of_le {n : Nat} (h : 10 ≤ n) : digitsOf n = digitsOf (n / 10) ++ [n % 10] := by
  have hlast : n % 10 < 10 := Nat.mod_lt _ (by decide)
  unfold digitsOf
  rw [Nat.toDigits_of_base_le (by decide) h, List.map_append, List.map_singleton, toNat_digitChar_sub hlast]

theorem digitsOf_ne_nil (n : Nat) : digitsOf n ≠ [] := by
  unfold digitsOf
  intro h
  exact Nat.toDigits_ne_nil (List.map_eq_nil_iff.1 h)

theorem lt_of_mem_digitsOf {n d : Nat} (h : d ∈ digitsOf n) : d < 10 := by
  induction n using Nat.strongRecOn with
  | ind n ih =>
    by_cases hlt : n < 10
    · rw [digitsOf_of_lt hlt, List.mem_singleton] at h
      exact h ▸ hlt
    · have hle : 10 ≤ n := by omega
      rw [digitsOf_of_le hle, List.mem_append, List.mem_singleton] at h
      rcases h with h | h
      · exact ih (n / 10) (by omega) h
      · omega

/-- The digits of a positive number do not begin with zero. -/
theorem head?_digitsOf {n : Nat} (h : 0 < n) : (digitsOf n).head? ≠ some 0 := by
  induction n using Nat.strongRecOn with
  | ind n ih =>
    by_cases hlt : n < 10
    · rw [digitsOf_of_lt hlt, List.head?_cons]
      intro hzero
      exact Nat.ne_of_gt h (Option.some.inj hzero)
    · have hle : 10 ≤ n := by omega
      have hfirst := ih (n / 10) (by omega) (by omega)
      obtain ⟨d, ds, hds⟩ := List.exists_cons_of_ne_nil (digitsOf_ne_nil (n / 10))
      rw [hds] at hfirst
      rw [digitsOf_of_le hle, hds]
      exact hfirst

theorem length_digitsOf_le_iff {n k : Nat} (h : 0 < k) : (digitsOf n).length ≤ k ↔ n < 10 ^ k := by
  rw [digitsOf, List.length_map]
  exact Nat.length_toDigits_le_iff (by decide) h

/-! ## The number of digits -/

theorem foldl_digits : ∀ (ds : List Nat) (n : Nat),
    ds.foldl (fun n d => 10 * n + d) n = n * 10 ^ ds.length + ofDigits ds
  | [], n => by simp [ofDigits]
  | d :: ds, n => by
    have hall : ofDigits (d :: ds) = d * 10 ^ ds.length + ofDigits ds := by
      rw [ofDigits, List.foldl_cons, foldl_digits ds, Nat.mul_zero, Nat.zero_add]
    rw [List.foldl_cons, foldl_digits ds, hall, List.length_cons]
    ring

theorem ofDigits_append (ds es : List Nat) : ofDigits (ds ++ es) = ofDigits ds * 10 ^ es.length + ofDigits es := by
  rw [ofDigits, List.foldl_append, foldl_digits es]
  rfl

theorem ofDigits_cons (d : Nat) (ds : List Nat) : ofDigits (d :: ds) = d * 10 ^ ds.length + ofDigits ds := by
  rw [← List.singleton_append, ofDigits_append]
  simp [ofDigits]

theorem ofDigits_replicate_zero (k : Nat) : ofDigits (List.replicate k 0) = 0 := by
  induction k with
  | zero => rfl
  | succ k ih => rw [List.replicate_succ, ofDigits_cons, ih, Nat.zero_mul]

/-- **The digits of a number give the number back.** -/
@[simp] theorem ofDigits_digitsOf (n : Nat) : ofDigits (digitsOf n) = n := by
  induction n using Nat.strongRecOn with
  | ind n ih =>
    by_cases hlt : n < 10
    · rw [digitsOf_of_lt hlt, ofDigits_cons]
      simp [ofDigits]
    · have hle : 10 ≤ n := by omega
      have hlast : ofDigits [n % 10] = n % 10 := by simp [ofDigits]
      rw [digitsOf_of_le hle, ofDigits_append, ih (n / 10) (by omega), hlast, List.length_singleton]
      omega

end FileGraph.Decimal
