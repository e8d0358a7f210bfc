import FileGraph.Decimal.Numeral
/-!
# Json — documents

A document keeps numbers as they are written and objects with all their members in order.  A text whose escapes name
half of a surrogate pair is no string of characters: it is kept as `none`, which only matters if somebody asks for it.

Records are read by position or by name: `record?` gives the value of each field of an object, or the items of an
array that lists the fields in order.
-/
namespace FileGraph

open Decimal

inductive Json where
  | null
  | bool (value : Bool)
  | number (value : Numeral)
  | string (value : Option String)
  | array (items : List Json)
  | object (members : List (Option String × Json))

namespace Json

def ofString (s : String) : Json := string (some s)

def ofNat (n : Nat) : Json := number (.ofNat n)

/-- A floating-point number.  What is not finite is written as `null`. -/
def ofFloat (x : Float) : Json :=
  match Numeral.ofFloat? x with
  | some n => number n
  | none => null

def ofMembers (members : List (String × Json)) : Json := object (members.map fun m => (some m.1, m.2))

/-! ## Reading values -/

def string? : Json → Option String
  | string s => s
  | _ => none

/-- A natural number of 64 bits. -/
def natural? : Json → Option Nat
  | number n => n.natural?
  | _ => none

def float? : Json → Option Float
  | number n => n.float?
  | _ => none

def array? : Json → Option (List Json)
  | array items => some items
  | _ => none

/-- An optional value, for which `null` stands if it is missing. -/
def orNull? {α : Type} (read : Json → Option α) : Json → Option (Option α)
  | null => some none
  | j => (read j).map some

/-- The items of an array. -/
def listOf? {α : Type} (read : Json → Option α) (j : Json) : Option (List α) :=
  j.array?.bind (·.mapM read)

/-- The members of an object as a list of names and values. -/
def members? {α : Type} (read : Json → Option α) : Json → Option (List (String × α))
  | object members => members.mapM fun m => m.1.bind fun name => (read m.2).map fun v => (name, v)
  | _ => none

/-- The values of the fields of a record: the members of an object with these names, none of them twice, or the items
of an array in this order.  A field that is missing has no value. -/
def record? (fields : List String) : Json → Option (List (Option Json))
  | object members =>
    if members.all (fun m => m.1.isSome) &&
        fields.all (fun f => decide ((members.filter fun m => m.1 == some f).length ≤ 1)) then
      some (fields.map fun f => members.lookup (some f))
    else none
  | array items =>
    if items.length ≤ fields.length then
      some (items.map some ++ List.replicate (fields.length - items.length) none)
    else none
  | _ => none

/-- A field that has to be there. -/
def required? {α : Type} (read : Json → Option α) : Option Json → Option α
  | some j => read j
  | none => none

/-- A field with a value to stand for it where it is missing. -/
def optional? {α : Type} (read : Json → Option α) (default : α) : Option Json → Option α
  | some j => read j
  | none => some default

end Json

end FileGraph
