/-!
# Weight — the weight of a dependency

A raw score `n` weighs `ln (n + 1)`, rounded to hundredths.  The logarithm is taken in integers: with
`n + 1 = 2 ^ k · x` and `1 ≤ x < 2` it is `k · ln 2 + 2 · artanh ((x - 1) / (x + 1))`, each series in units of
`2 ^ -100`.  For no score of 32 bits is the logarithm so near to the middle of two hundredths that this could matter.
-/
namespace FileGraph.Weight

/-- The unit of fixed-point numbers. -/
def unit : Nat := Nat.pow 2 100

/-- Sums `power / (2 i + 1)` over the powers of a series with ratio `square`. -/
def oddSeries (square : Nat) : (terms : Nat) → (i power : Nat) → Nat
  | 0, _, _ => 0
  | terms + 1, i, power => power / (2 * i + 1) + oddSeries square terms (i + 1) (power * square / unit)

/-- The inverse hyperbolic tangent of a fraction of at most a third, in fixed point. -/
def artanh (num den : Nat) : Nat :=
  let z := num * unit / den
  oddSeries (z * z / unit) 60 0 z

/-- The natural logarithm of a positive number, in fixed point. -/
def ln (n : Nat) : Nat :=
  let k := Nat.log2 n
  k * (2 * artanh 1 3) + 2 * artanh (n - Nat.pow 2 k) (n + Nat.pow 2 k)

/-- The hundredths of the weight of a raw score. -/
def hundredths (raw : Nat) : Nat := (200 * ln (raw + 1) + unit) / (2 * unit)

/-- The weight of a raw score. -/
def ofRaw (raw : Nat) : Float := Float.ofScientific (hundredths raw) true 2

end FileGraph.Weight
