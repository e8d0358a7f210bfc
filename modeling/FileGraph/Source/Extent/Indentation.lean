import FileGraph.Text.Lines
/-!
# Indentation — the extent of an indented block

A block consists of its header and of the lines that follow it for as long as they are blank or indented deeper than
the header.
-/
namespace FileGraph.Source

open Text

/-- The columns of white space before a line's text; a tab counts four. -/
def indentation (line : List Char) : Nat :=
  ((line.takeWhile isBlank).map fun c => if c = '\t' then 4 else 1).foldr (· + ·) 0

/-- The number of lines of the block whose header is the first of the lines. -/
def indentationExtent : List (List Char) → Nat
  | [] => 1
  | header :: rest =>
    1 + (rest.takeWhile fun line => line.all isBlank || decide (indentation header < indentation line)).length

end FileGraph.Source
