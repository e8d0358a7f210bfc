import FileGraph.Decimal.Shortest
/-!
# Numeral — decimal numbers as they are written

A numeral keeps the digits of a number as they stand in a text: `12.50e-3` is not `0.0125`.  It can be read as a
natural number of 64 bits (`natural?`) or as a floating-point number (`float?`), and it is what a floating-point number
is written as (`ofFloat?`).

Reading a float takes as many leading digits as fit into 64 bits and then scales by a power of ten, each step rounded
once.  So a numeral of up to nineteen digits with a small exponent is read to within an ulp, and one that is too large
is refused.
-/
namespace FileGraph.Decimal

/-- A written number: its digits before and after the point, and the sign and digits of its exponent. -/
structure Numeral where
  negative : Bool
  whole    : List Nat
  fraction : List Nat
  exponent : Option (Bool × List Nat)
  deriving DecidableEq, Repr

/-- The digits of a natural number, the most significant first. -/
def digitsOf (n : Nat) : List Nat := (Nat.toDigits 10 n).map fun c => c.toNat - '0'.toNat

/-- The number with the given digits. -/
def ofDigits (ds : List Nat) : Nat := ds.foldl (fun n d => 10 * n + d) 0

def digitChar (d : Nat) : Char := Char.ofNat ('0'.toNat + d)

namespace Numeral

/-! ## Text -/

/-- The text of a numeral.  An exponent always has a sign. -/
def text (n : Numeral) : List Char :=
  (if n.negative then ['-'] else []) ++ n.whole.map digitChar ++
    (if n.fraction.isEmpty then [] else '.' :: n.fraction.map digitChar) ++
    match n.exponent with
    | none => []
    | some (negative, ds) => 'e' :: (if negative then '-' else '+') :: ds.map digitChar

/-- The numeral of a natural number. -/
def ofNat (n : Nat) : Numeral := ⟨false, digitsOf n, [], none⟩

/-- How a float is written: with the fewest digits that read back, a half going to the even digit; the point stands
where it belongs for numbers from `10 ^ -5` below `10 ^ 16`, and other numbers have an exponent.  There is always a
fraction where there is no exponent. -/
def ofFloat? (x : Float) : Option Numeral :=
  match parts x with
  | .finite negative m e =>
    let (d, p) := shortest m e .even
    let ds := digitsOf d
    let point := (ds.length : Int) + p
    some <|
      if 0 ≤ p ∧ point ≤ 16 then ⟨negative, ds ++ List.replicate p.toNat 0, [0], none⟩
      else if 0 < point ∧ point ≤ 16 then ⟨negative, ds.take point.toNat, ds.drop point.toNat, none⟩
      else if -5 < point ∧ point ≤ 0 then ⟨negative, [0], List.replicate (-point).toNat 0 ++ ds, none⟩
      else ⟨negative, ds.take 1, ds.drop 1, some (decide (point - 1 < 0), digitsOf (point - 1).natAbs)⟩
  | _ => none

/-! ## Value -/

/-- The largest number of 64 bits. -/
def maxWord : Nat := Nat.pow 2 64 - 1

/-- Takes digits for as long as the number stays within 64 bits. -/
def takeDigits : Nat → List Nat → Nat × List Nat
  | n, [] => (n, [])
  | n, d :: ds => if 10 * n + d ≤ maxWord then takeDigits (10 * n + d) ds else (n, d :: ds)

/-- The value of a numeral that has neither sign, fraction nor exponent, if it has 64 bits. -/
def natural? (n : Numeral) : Option Nat :=
  if n.negative || !n.fraction.isEmpty || n.exponent.isSome then none
  else if ofDigits n.whole ≤ maxWord then some (ofDigits n.whole) else none

/-- A power of ten as a float, exact up to the last bit. -/
def power (n : Nat) : Float := Float.ofScientific 1 false n

/-- Scales a float by a power of ten.  A result that is not finite is refused; a small one ends at zero. -/
def scale : (steps : Nat) → Float → Int → Option Float
  | 0, f, _ => some f
  | steps + 1, f, e =>
    if e.natAbs ≤ 308 then
      if 0 ≤ e then
        let g := f * power e.natAbs
        if g.isInf then none else some g
      else some (f / power e.natAbs)
    else if f == 0.0 then some f
    else if 0 ≤ e then none
    else scale steps (f / power 308) (e + 308)

/-- A word as a float with a sign. -/
def scaleSigned (negative : Bool) (significand : Nat) (e : Int) : Option Float :=
  (scale 5 (Float.ofScientific significand false 0) e).map fun f => if negative then -f else f

/-- The bound of a written exponent. -/
def maxExponent : Nat := Nat.pow 2 31 - 1

/-- The value of a numeral as a float, if it is finite. -/
def float? (n : Numeral) : Option Float :=
  let (whole, dropped) := takeDigits 0 n.whole
  let (significand, rest) := takeDigits whole n.fraction
  let shift : Int := (dropped.length : Int) - (n.fraction.length - rest.length : Nat)
  match n.exponent with
  | none => scaleSigned n.negative significand shift
  | some (negative, ds) =>
    let e := ofDigits ds
    if maxExponent < e then
      if significand ≠ 0 && !negative then none else some (if n.negative then -0.0 else 0.0)
    else scaleSigned n.negative significand (if negative then shift - e else shift + e)

end Numeral

end FileGraph.Decimal
