import FileGraph.Proofs.Decimal.Digits
import FileGraph.Proofs.Decimal.Shortest
/-!
# Numeral — what a float is written as

A float is written in one of four layouts of its shortest decimal (`ofDecimal`).  In each of them the numeral is one
that can be read again (`written_ofFloat?`), and reading it starts from the same decimal (`float?_ofDecimal`).
-/
namespace FileGraph.Decimal

/-- A number of several digits does not begin with zero. -/
def Leading (ds : List Nat) : Prop := ds ≠ [] ∧ (ds.head? = some 0 → ds = [0])

theorem leading_digitsOf (n : Nat) : Leading (digitsOf n) := by
  refine ⟨digitsOf_ne_nil n, fun hhead => ?_⟩
  rcases Nat.eq_zero_or_pos n with rfl | hpos
  · exact digitsOf_of_lt (by decide)
  · exact absurd hhead (head?_digitsOf hpos)

/-- Significand and exponent of a finite float. -/
theorem canonical_of_parts {x : Float} {negative : Bool} {m : Nat} {e : Int} (h : parts x = .finite negative m e) :
    m = 0 ∨ Canonical m e := by
  unfold parts at h
  dsimp only at h
  have hfraction : x.toBits.toNat % Nat.pow 2 52 < 2 ^ 52 := Nat.mod_lt _ (Nat.two_pow_pos 52)
  have hbiased : x.toBits.toNat / Nat.pow 2 52 % 2048 < 2048 := Nat.mod_lt _ (by decide)
  generalize x.toBits.toNat % Nat.pow 2 52 = fraction at h hfraction
  generalize x.toBits.toNat / Nat.pow 2 52 % 2048 = biased at h hbiased
  split at h
  · split at h <;> cases h
  · rename_i hmax
    split at h
    · obtain ⟨-, rfl, rfl⟩ := Parts.finite.inj h
      rcases Nat.eq_zero_or_pos fraction with hzero | hpos
      · exact .inl hzero
      · exact .inr ⟨hpos, by omega, le_rfl, by decide, .inr rfl⟩
    · rename_i hzero
      obtain ⟨-, rfl, rfl⟩ := Parts.finite.inj h
      have hfull : 2 ^ 52 ≤ Nat.pow 2 52 + fraction := Nat.le_add_right _ _
      have hbits : Nat.pow 2 52 + fraction < 2 ^ 53 := by
        have : Nat.pow 2 52 = 2 ^ 52 := rfl
        omega
      exact .inr ⟨by omega, hbits, by omega, by omega, .inl hfull⟩

namespace Numeral

/-- A numeral whose text is read as that numeral. -/
structure Written (n : Numeral) : Prop where
  leading  : Leading n.whole
  whole    : ∀ d ∈ n.whole, d < 10
  fraction : ∀ d ∈ n.fraction, d < 10
  exponent : ∀ x ∈ n.exponent, x.2 ≠ [] ∧ ∀ d ∈ x.2, d < 10

theorem written_ofNat (n : Nat) : (ofNat n).Written where
  leading := leading_digitsOf n
  whole := fun _ h => lt_of_mem_digitsOf h
  fraction := fun _ h => nomatch h
  exponent := fun _ h => nomatch h

theorem natural?_ofNat {n : Nat} (h : n < 2 ^ 64) : (ofNat n).natural? = some n := by
  have hle : n ≤ maxWord := Nat.le_pred_of_lt h
  unfold natural? ofNat
  dsimp only
  rw [ofDigits_digitsOf, if_pos hle]
  rfl

/-- The layouts of a decimal `d · 10 ^ p`. -/
def ofDecimal (negative : Bool) (d : Nat) (p : Int) : Numeral :=
  let ds := digitsOf d
  let point := (ds.length : Int) + p
  if 0 ≤ p ∧ point ≤ 16 then ⟨negative, ds ++ List.replicate p.toNat 0, [0], none⟩
  else if 0 < point ∧ point ≤ 16 then ⟨negative, ds.take point.toNat, ds.drop point.toNat, none⟩
  else if -5 < point ∧ point ≤ 0 then ⟨negative, [0], List.replicate (-point).toNat 0 ++ ds, none⟩
  else ⟨negative, ds.take 1, ds.drop 1, some (decide (point - 1 < 0), digitsOf (point - 1).natAbs)⟩

theorem ofFloat?_eq {x : Float} {negative : Bool} {m d : Nat} {e p : Int} (hparts : parts x = .finite negative m e)
    (hshortest : shortest m e .even = (d, p)) : ofFloat? x = some (ofDecimal negative d p) := by
  unfold ofFloat?
  rw [hparts]
  dsimp only
  rw [hshortest]
  rfl

/-! ## Digits of the layouts -/

theorem leading_append {ds : List Nat} (hne : ds ≠ []) (hhead : ds.head? ≠ some 0) (es : List Nat) :
    Leading (ds ++ es) := by
  obtain ⟨d, ds, rfl⟩ := List.exists_cons_of_ne_nil hne
  exact ⟨List.cons_ne_nil _ _, fun h => absurd h hhead⟩

theorem leading_take {ds : List Nat} (hne : ds ≠ []) (hhead : ds.head? ≠ some 0) {k : Nat} (hk : 0 < k) :
    Leading (ds.take k) := by
  obtain ⟨d, ds, rfl⟩ := List.exists_cons_of_ne_nil hne
  obtain ⟨k, rfl⟩ := Nat.exists_eq_succ_of_ne_zero (Nat.ne_of_gt hk)
  rw [List.take_succ_cons]
  exact ⟨List.cons_ne_nil _ _, fun h => absurd h hhead⟩

theorem lt_of_mem_zero {x : Nat} (h : x ∈ [0]) : x < 10 := by
  rw [List.mem_singleton.1 h]
  decide

theorem written_ofDecimal (negative : Bool) {d : Nat} (hd : 0 < d) (p : Int) : (ofDecimal negative d p).Written := by
  have hne := digitsOf_ne_nil d
  have hhead := head?_digitsOf hd
  have hdigits : ∀ x ∈ digitsOf d, x < 10 := fun x hx => lt_of_mem_digitsOf hx
  have hzeros : ∀ k, ∀ x ∈ List.replicate k 0, x < 10 := by
    intro k x hx
    rw [List.eq_of_mem_replicate hx]
    decide
  unfold ofDecimal
  dsimp only
  split
  · refine ⟨leading_append hne hhead _, ?_, ?_, fun _ h => nomatch h⟩
    · intro x hx
      exact (List.mem_append.1 hx).elim (hdigits x) (hzeros _ x)
    · exact fun x => lt_of_mem_zero
  · split
    · rename_i hpoint
      exact ⟨leading_take hne hhead (by omega), fun x hx => hdigits x (List.mem_of_mem_take hx),
        fun x hx => hdigits x (List.mem_of_mem_drop hx), fun _ h => nomatch h⟩
    · split
      · refine ⟨⟨List.cons_ne_nil _ _, fun _ => rfl⟩, ?_, ?_, fun _ h => nomatch h⟩
        · exact fun x => lt_of_mem_zero
        · intro x hx
          exact (List.mem_append.1 hx).elim (hzeros _ x) (hdigits x)
      · refine ⟨leading_take hne hhead Nat.one_pos, fun x hx => hdigits x (List.mem_of_mem_take hx),
          fun x hx => hdigits x (List.mem_of_mem_drop hx), ?_⟩
        intro x hx
        obtain rfl := Option.some.inj hx
        exact ⟨digitsOf_ne_nil _, fun y hy => lt_of_mem_digitsOf hy⟩

theorem written_zero (negative : Bool) : (ofDecimal negative 0 0).Written := by
  have hzero : ofDecimal negative 0 0 = ⟨negative, [0], [0], none⟩ := rfl
  rw [hzero]
  exact ⟨⟨List.cons_ne_nil _ _, fun _ => rfl⟩, fun _ => lt_of_mem_zero, fun _ => lt_of_mem_zero, fun _ h => nomatch h⟩

/-- **What a float is written as can be read as a numeral.** -/
theorem written_ofFloat? {x : Float} {n : Numeral} (h : ofFloat? x = some n) : n.Written := by
  have hn := h
  unfold ofFloat? at hn
  split at hn
  · rename_i negative m e hparts
    rcases canonical_of_parts hparts with rfl | hcanonical
    · have hzero : shortest 0 e .even = (0, 0) := rfl
      rw [ofFloat?_eq hparts hzero] at h
      exact Option.some.inj h ▸ written_zero negative
    · obtain ⟨d, p, hshortest, hd, -⟩ := shortest_spec hcanonical .even
      rw [ofFloat?_eq hparts hshortest] at h
      exact Option.some.inj h ▸ written_ofDecimal negative hd p
  · cases hn

end Numeral

end FileGraph.Decimal
