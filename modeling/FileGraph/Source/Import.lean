import FileGraph.Text.Pattern
/-!
# Import — the specifiers by which a file names others

Several patterns may find specifiers in one text, each with its place.  `inOrder` puts them in the order of their
places and keeps the first of each.
-/
namespace FileGraph.Source

open Text

/-- A specifier and the number of characters before it. -/
abbrev Located := Nat × String

/-- What a pattern captures in its first slot, trimmed, with its place; empty texts are left out. -/
def located (p : Pattern) (text : List Char) : List Located :=
  (p.findAll text).filterMap fun m =>
    match m.slot? 1 with
    | some c =>
      match trim c.text with
      | [] => none
      | x :: xs => some (c.start, .ofList (x :: xs))
    | none => none

/-- The texts in the order of their places, each once. -/
def inOrder (found : List Located) : List String :=
  ((found.mergeSort fun a b => decide (a.1 ≤ b.1)).map (·.2)).eraseDups

/-- A text with one character in place of another. -/
def replaceChar (old new : Char) (s : String) : String :=
  .ofList (s.toList.map fun c => if c = old then new else c)

/-- A dotted module name as a relative path: leading dots climb, the others separate folders. -/
def dottedToPath (module : String) : String :=
  let dots := (module.toList.takeWhile (· == '.')).length
  let rest := (module.toList.drop dots).map fun c => if c = '.' then '/' else c
  let climb :=
    match dots with
    | 0 => []
    | 1 => ['.', '/']
    | n + 1 => (List.replicate n ['.', '.', '/']).flatten
  .ofList (climb ++ rest)

end FileGraph.Source
