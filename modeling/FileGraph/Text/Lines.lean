/-!
# Lines — cutting text into parts

Text is a list of characters here.  A separator cuts it into pieces (`pieces`), into two parts at its first or last
occurrence (`cut?`, `cutLast?`), and the newline cuts it into lines (`lines`): the last line needs no newline, and a
carriage return directly before a newline belongs to the line's end.

White space is the Unicode property, on which `trim` and `firstWord?` rest.
-/
namespace FileGraph.Text

/-- White space of any script. -/
def isBlank (c : Char) : Bool :=
  let n := c.toNat
  (9 ≤ n && n ≤ 13) || n == 0x20 || n == 0x85 || n == 0xA0 || n == 0x1680 || (0x2000 ≤ n && n ≤ 0x200A) ||
    n == 0x2028 || n == 0x2029 || n == 0x202F || n == 0x205F || n == 0x3000

/-! ## Trimming -/

/-- The text without the longest end on which `p` holds throughout. -/
def dropEndWhile (p : Char → Bool) (cs : List Char) : List Char :=
  (cs.reverse.dropWhile p).reverse

/-- The text without its white space at both ends. -/
def trim (cs : List Char) : List Char :=
  dropEndWhile isBlank (cs.dropWhile isBlank)

/-- The first run of characters that are not white space. -/
def firstWord? (cs : List Char) : Option (List Char) :=
  match (cs.dropWhile isBlank).takeWhile (fun c => !isBlank c) with
  | [] => none
  | word => some word

/-! ## Separators -/

/-- The parts of a text between the occurrences of a separator: one more than there are separators. -/
def pieces (sep : Char) : List Char → List (List Char)
  | [] => [[]]
  | c :: cs =>
    if c = sep then [] :: pieces sep cs
    else
      match pieces sep cs with
      | [] => [[c]]
      | p :: ps => (c :: p) :: ps

/-- What stands before and after the first occurrence of a separator. -/
def cut? (sep : Char) : List Char → Option (List Char × List Char)
  | [] => none
  | c :: cs => if c = sep then some ([], cs) else (cut? sep cs).map fun p => (c :: p.1, p.2)

/-- What stands before and after the last occurrence of a separator. -/
def cutLast? (sep : Char) : List Char → Option (List Char × List Char)
  | [] => none
  | c :: cs =>
    match cutLast? sep cs with
    | some p => some (c :: p.1, p.2)
    | none => if c = sep then some ([], cs) else none

/-- The rest of a text that begins with the given one. -/
def dropStart? : List Char → List Char → Option (List Char)
  | [], cs => some cs
  | _ :: _, [] => none
  | p :: ps, c :: cs => if p = c then dropStart? ps cs else none

/-- What follows the last separator, or all of the text if there is none. -/
def lastPiece (sep : Char) (cs : List Char) : List Char :=
  match cutLast? sep cs with
  | some p => p.2
  | none => cs

/-! ## Lines -/

/-- A line as it stood before its newline, without the carriage return that belongs to the line's end. -/
def dropReturn (line : List Char) : List Char :=
  match line.getLast? with
  | some '\r' => line.dropLast
  | _ => line

/-- The lines of a text.  A text that ends in a newline has no further line after it. -/
def lines (cs : List Char) : List (List Char) :=
  let ps := pieces '\n' cs
  ps.dropLast.map dropReturn ++ ps.getLast?.toList.filter (fun l => !l.isEmpty)

/-- The number of lines counted by newlines: one more than there are newlines. -/
def lineCount (cs : List Char) : Nat :=
  (pieces '\n' cs).length

end FileGraph.Text
