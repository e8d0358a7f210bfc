import FileGraph.Decimal.Numeral
/-!
# Places — numbers for readers

Two ways in which reports and messages write a number: with two places (`twoPlaces`), and with as many digits as it
needs and never an exponent (`plain`).
-/
namespace FileGraph.Decimal

/-- The text of the values that have no digits. -/
def special (negative : Bool) : List Char := if negative then "-inf".toList else "inf".toList

/-- A number with two places, rounded from its exact value, a half going to the even hundredth. -/
def twoPlaces (x : Float) : List Char :=
  match parts x with
  | .nan => "NaN".toList
  | .infinite negative => special negative
  | .finite negative m e =>
    let (num, den) := scaled (100 * m) e 0
    let n := roundDiv num den .even
    (if negative then ['-'] else []) ++ (digitsOf (n / 100)).map digitChar ++
      ['.', digitChar (n % 100 / 10), digitChar (n % 10)]

/-- A number with the fewest digits that read back, a half going up, written without exponent. -/
def plain (x : Float) : List Char :=
  match parts x with
  | .nan => "NaN".toList
  | .infinite negative => special negative
  | .finite negative m e =>
    let (d, p) := shortest m e .up
    let ds := digitsOf d
    let point := (ds.length : Int) + p
    (if negative then ['-'] else []) ++
      (if 0 ≤ p then ds ++ List.replicate p.toNat 0
       else if 0 < point then ds.take point.toNat
       else [0]).map digitChar ++
      (if 0 ≤ p then []
       else if 0 < point then '.' :: (ds.drop point.toNat).map digitChar
       else '.' :: (List.replicate (-point).toNat 0 ++ ds).map digitChar)

end FileGraph.Decimal
