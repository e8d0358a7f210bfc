/-!
# Binary — the exact value of a floating-point number

A finite number is `m · 2 ^ e` with a sign (`parts`).  Everything that is written of a number is computed from these
integers, so that no rounding happens on the way to its digits.
-/
namespace FileGraph.Decimal

/-- What the bits of a floating-point number stand for. -/
inductive Parts where
  | nan
  | infinite (negative : Bool)
  /-- The number `m · 2 ^ e` with a sign, which zero has too. -/
  | finite (negative : Bool) (m : Nat) (e : Int)
  deriving DecidableEq, Repr

/-- The value of a floating-point number. -/
def parts (x : Float) : Parts :=
  let bits := x.toBits.toNat
  let negative := decide (Nat.pow 2 63 ≤ bits)
  let biased : Nat := bits / Nat.pow 2 52 % 2048
  let fraction : Nat := bits % Nat.pow 2 52
  if biased = 2047 then
    if fraction = 0 then .infinite negative else .nan
  else if biased = 0 then .finite negative fraction (-1074)
  else .finite negative (Nat.pow 2 52 + fraction) ((biased : Int) - 1075)

/-- The total order on floating-point numbers: by sign and then by bits, so that negative zero comes before zero. -/
def orderKey (x : Float) : Int :=
  let bits := x.toBits.toNat
  if Nat.pow 2 63 ≤ bits then (Nat.pow 2 63 : Int) - 1 - bits else bits

/-- The fraction of naturals that is `m · 2 ^ e · 10 ^ d`. -/
def scaled (m : Nat) (e d : Int) : Nat × Nat :=
  (m * Nat.pow 2 e.toNat * Nat.pow 10 d.toNat, Nat.pow 2 (-e).toNat * Nat.pow 10 (-d).toNat)

/-- A half between two neighbours goes up, or to the even one. -/
inductive Tie where
  | up | even
  deriving DecidableEq, Repr

/-- The natural number nearest to a fraction. -/
def roundDiv (num den : Nat) (tie : Tie) : Nat :=
  let q := num / den
  let twice := 2 * (num % den)
  if twice < den then q
  else if den < twice then q + 1
  else match tie with
    | .up => q + 1
    | .even => if q % 2 = 0 then q else q + 1

end FileGraph.Decimal
