import FileGraph.Proofs.Decimal.Binary
/-!
# Order — the order of the bits agrees with that of the numbers

The key by which floats are ordered is read off their bits.  For a number it is made of the sign, the exponent and the
significand (`orderKey_eq`), so that a smaller number has a smaller key (`orderKey_lt`).
-/
namespace FileGraph.Decimal

open Float.Model (UnpackedFloat)
open Float.Model.UnpackedFloat

/-! ## Keys of the parts -/

/-- The bits of a magnitude without its sign. -/
def magnitude (m : Nat) (e : Int) : Int := (e + 1074) * 2 ^ 52 + m

/-- The magnitude with its sign: the negative ones are below, of these the largest first. -/
def signed (negative : Bool) (magnitude : Int) : Int := if negative then -1 - magnitude else magnitude

/-- The key of the parts of a number. -/
def Parts.key : Parts → Int
  | .nan => 0
  | .infinite negative => signed negative (2047 * 2 ^ 52)
  | .finite negative m e => signed negative (magnitude m e)

theorem orderKey_eq {x : Float} (h : parts x ≠ .nan) : orderKey x = (parts x).key := by
  have hbits : x.toBits.toNat < 2 ^ 64 := x.toBits.toNat_lt
  have hsign : Nat.pow 2 63 = 2 ^ 63 := rfl
  have hfield : Nat.pow 2 52 = 2 ^ 52 := rfl
  unfold orderKey
  unfold parts at h ⊢
  dsimp only at h ⊢
  rw [hsign, hfield] at h
  rw [hsign, hfield]
  generalize x.toBits.toNat = bits at *
  have hkey : ∀ n : Int, signed (decide (2 ^ 63 ≤ bits)) n = if 2 ^ 63 ≤ bits then -1 - n else n := by
    intro n
    simp [signed]
  split_ifs at h ⊢ with hnegative hmax hfraction hmin hmax hfraction hmin
  all_goals first
    | exact absurd rfl h
    | (simp only [Parts.key, magnitude, hkey]; split_ifs; omega)

theorem key_infinity (s : Sign) : (Parts.ofUnpacked (.infinity s)).key = signed (isNegative s) (2047 * 2 ^ 52) := rfl

theorem key_zero (s : Sign) : (Parts.ofUnpacked (.zero s)).key = signed (isNegative s) 0 := rfl

theorem key_finite (s : Sign) (m : Nat) (e : Int) (hm : 0 < m) :
    (Parts.ofUnpacked (.finite s m e hm)).key = signed (isNegative s) (magnitude m e) := rfl

section Canonical

variable {m₁ m₂ : Nat} {e₁ e₂ : Int}

theorem Canonical.magnitude_pos (h : Canonical m₁ e₁) : 0 < magnitude m₁ e₁ := by
  have hpos := h.pos
  have hlow := h.low
  unfold magnitude
  omega

theorem Canonical.magnitude_lt (h : Canonical m₁ e₁) : magnitude m₁ e₁ < 2047 * 2 ^ 52 := by
  have hbits := h.bits
  have hhigh := h.high
  unfold magnitude
  omega

/-- Of two magnitudes the exponents decide, and the significands where these agree: a larger exponent has a full
significand. -/
theorem Canonical.magnitude_lt_magnitude (h₁ : Canonical m₁ e₁) (h₂ : Canonical m₂ e₂)
    (h : (compare e₁ e₂).then (compare m₁ m₂) = .lt) : magnitude m₁ e₁ < magnitude m₂ e₂ := by
  have hbits := h₁.bits
  have hlow := h₁.low
  unfold magnitude
  rcases Ordering.then_eq_lt.1 h with he | ⟨he, hm⟩
  · have hlt : e₁ < e₂ := Int.compare_eq_lt.1 he
    rcases h₂.full with hfull | hlowest <;> omega
  · have heq : e₁ = e₂ := Int.compare_eq_eq.1 he
    have hlt : m₁ < m₂ := Nat.compare_eq_lt.1 hm
    omega

end Canonical

/-! ## The order -/

theorem canonical_of_unpack {x : Float} {s : Sign} {m : Nat} {e : Int} {hm : 0 < m}
    (h : x.toModel.unpack = .finite s m e hm) : Canonical m e := by
  have hparts := parts_eq x
  rw [h] at hparts
  exact (canonical_of_parts hparts).resolve_left (Nat.ne_of_gt hm)

theorem parts_ne_nan_of_lt {x y : Float} (h : x < y) : parts x ≠ .nan ∧ parts y ≠ .nan := by
  have hlt : x.toModel.unpack.lt y.toModel.unpack = true := of_decide_eq_true h
  rw [parts_eq, parts_eq]
  cases hx : x.toModel.unpack <;> cases hy : y.toModel.unpack <;> rw [hx, hy] at hlt <;>
    first
      | cases hlt
      | exact ⟨nofun, nofun⟩

/-- Two finite numbers are compared by their signs, and by their magnitudes where these agree. -/
theorem key_lt_of_finite {s t : Sign} {m₁ m₂ : Nat} {e₁ e₂ : Int} {h₁ : 0 < m₁} {h₂ : 0 < m₂} (hx : Canonical m₁ e₁)
    (hy : Canonical m₂ e₂) (h : (UnpackedFloat.finite s m₁ e₁ h₁).lt (.finite t m₂ e₂ h₂) = true) :
    (Parts.finite (isNegative s) m₁ e₁).key < (Parts.finite (isNegative t) m₂ e₂).key := by
  have hpos₁ := hx.magnitude_pos
  have hpos₂ := hy.magnitude_pos
  have hcompare := eq_of_beq h
  cases s with
  | positive =>
    cases t with
    | positive => exact hx.magnitude_lt_magnitude hy (Option.some.inj hcompare)
    | negative => cases hcompare
  | negative =>
    cases t with
    | positive =>
      change -1 - magnitude m₁ e₁ < magnitude m₂ e₂
      omega
    | negative =>
      have hswap : (compare e₂ e₁).then (compare m₂ m₁) = .lt := by
        have h' : ((compare e₁ e₂).then (compare m₁ m₂)).swap = .lt := Option.some.inj hcompare
        rwa [Ordering.swap_then, Int.compare_swap, Nat.compare_swap] at h'
      have hlt := hy.magnitude_lt_magnitude hx hswap
      change -1 - magnitude m₁ e₁ < -1 - magnitude m₂ e₂
      omega

/-- **A smaller number has a smaller key.** -/
theorem orderKey_lt {x y : Float} (h : x < y) : orderKey x < orderKey y := by
  have hlt : x.toModel.unpack.lt y.toModel.unpack = true := of_decide_eq_true h
  obtain ⟨hnx, hny⟩ := parts_ne_nan_of_lt h
  rw [orderKey_eq hnx, orderKey_eq hny, parts_eq, parts_eq]
  have hx : ∀ {s m e hm}, x.toModel.unpack = .finite s m e hm → Canonical m e := canonical_of_unpack
  have hy : ∀ {s m e hm}, y.toModel.unpack = .finite s m e hm → Canonical m e := canonical_of_unpack
  generalize x.toModel.unpack = f at *
  generalize y.toModel.unpack = g at *
  cases f with
  | notANumber => cases hlt
  | infinity s =>
    cases g with
    | notANumber => cases hlt
    | finite t m e hm =>
      have hpos := (hy rfl).magnitude_pos
      have hbound := (hy rfl).magnitude_lt
      rw [key_infinity, key_finite]
      cases s <;> cases t <;> first
        | exact absurd hlt Bool.false_ne_true
        | (simp [signed, isNegative]; omega)
    | _ t => cases s <;> cases t <;> first | exact absurd hlt Bool.false_ne_true | decide
  | zero s =>
    cases g with
    | notANumber => cases hlt
    | finite t m e hm =>
      have hpos := (hy rfl).magnitude_pos
      rw [key_zero, key_finite]
      cases s <;> cases t <;> first
        | exact absurd hlt Bool.false_ne_true
        | (simp [signed, isNegative]; omega)
    | _ t => cases s <;> cases t <;> first | exact absurd hlt Bool.false_ne_true | decide
  | finite s m e hm =>
    have hpos := (hx rfl).magnitude_pos
    have hbound := (hx rfl).magnitude_lt
    cases g with
    | notANumber => cases hlt
    | finite t m' e' hm' => exact key_lt_of_finite (hx rfl) (hy rfl) hlt
    | infinity t =>
      rw [key_finite, key_infinity]
      cases s <;> cases t <;> first
        | exact absurd hlt Bool.false_ne_true
        | (simp [signed, isNegative]; omega)
    | zero t =>
      rw [key_finite, key_zero]
      cases s <;> cases t <;> first
        | exact absurd hlt Bool.false_ne_true
        | (simp [signed, isNegative]; omega)

end FileGraph.Decimal
