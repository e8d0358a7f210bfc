import FileGraph.Decimal.Binary
/-!
# Shortest — the fewest digits that read back

All reals between the two midpoints around a floating-point number are read as that number, the midpoints too if its
significand is even.  Of the decimals there, `shortest` takes one with the fewest digits, and of those the nearest.
It looks at ever finer grids `10 ^ p`: on each only the two neighbours of the number can be the answer.
-/
namespace FileGraph.Decimal

/-- The midpoints around `m · 2 ^ e` and the number itself, in units of `2 ^ (e - 2)`.  Below a power of two the
neighbour is only half as far away. -/
structure Neighbourhood where
  low       : Nat
  value     : Nat
  high      : Nat
  inclusive : Bool

/-- The neighbourhood of `m · 2 ^ e`. -/
def neighbourhood (m : Nat) (e : Int) : Neighbourhood :=
  ⟨if m = Nat.pow 2 52 ∧ -1074 < e then 4 * m - 1 else 4 * m - 2, 4 * m, 4 * m + 2, m % 2 == 0⟩

/-- The multiple of `10 ^ p` in the neighbourhood that is nearest to the number, as a factor of `10 ^ p`. -/
def nearestOnGrid? (n : Neighbourhood) (e p : Int) (tie : Tie) : Option Nat :=
  let (a, b) := scaled 1 (e - 2) (-p)
  let inside (c : Nat) : Bool :=
    if n.inclusive then decide (n.low * a ≤ c * b) && decide (c * b ≤ n.high * a)
    else decide (n.low * a < c * b) && decide (c * b < n.high * a)
  let c := n.value * a / b
  match inside c, inside (c + 1) with
  | true, true => some (roundDiv (n.value * a) b tie)
  | true, false => some c
  | false, true => some (c + 1)
  | false, false => none

/-- Looks for the coarsest grid from `10 ^ p` on downwards. -/
def coarsest (n : Neighbourhood) (e : Int) (tie : Tie) : (steps : Nat) → (p : Int) → Nat × Int
  | 0, p => (0, p)
  | steps + 1, p =>
    match nearestOnGrid? n e p tie with
    | some c => (c, p)
    | none => coarsest n e tie steps (p - 1)

/-- The digits `d` and exponent `p` of the shortest decimal `d · 10 ^ p` that reads back as `m · 2 ^ e`.  The search
starts above the number and needs at most some twenty grids. -/
def shortest (m : Nat) (e : Int) (tie : Tie) : Nat × Int :=
  if m = 0 then (0, 0)
  else
    let magnitude := ((Nat.log2 m : Int) + 1 + e) * 30103 / 100000 + 1
    coarsest (neighbourhood m e) e tie 40 magnitude

end FileGraph.Decimal
