import FileGraph.Text.Words
/-!
# Keywords — the extent of a block that closes with `end`

A line opens a block if its first word is an opening keyword, or if it ends in `do` with optional block parameters.
Each `end` that stands alone on a line closes one.  Comments are left out, except that a `#` after a quote is not
taken for one.
-/
namespace FileGraph.Source

open Text Text.Pattern

/-- The words that open a block at the start of a line. -/
def openers : List String :=
  ["def", "class", "module", "if", "unless", "while", "until", "case", "begin", "for"]

/-- A line without its comment.  A `#` with a quote before it may stand in a string: then all of the line is kept. -/
def dropComment (line : List Char) : List Char :=
  match cut? '#' line with
  | some (code, _) => if code.any (fun c => c == '"' || c == '\'') then line else code
  | none => line

/-- A `do` at the end of a line, with optional block parameters. -/
def doBlock : Pattern :=
  wordEdge ++ lit "do" ++ blanks ++ opt (lit "|" ++ many 0 (· != '|') ++ lit "|") ++ blanks ++ textEnd

/-- A definition that is complete in its line: `def name(…) = value`. -/
def endlessDefinition : Pattern :=
  blanks ++ lit "def" ++ blanks1 ++ opt (lit "self.") ++ one (fun c => c.isAlpha || c == '_') ++ many 0 isWordChar ++
    opt (one fun c => c == '?' || c == '!') ++ blanks ++ opt (lit "(" ++ many 0 (· != ')') ++ lit ")") ++ blanks ++
    lit "=" ++ one fun c => !"=~>(".toList.contains c

def opensBlock (line : List Char) : Bool :=
  (match firstWord? line with
   | some word => openers.contains (.ofList word)
   | none => false) || doBlock.occursIn line

/-- The number of blocks that a line closes. -/
def closings (line : List Char) : Nat := mentions "end".toList line

/-- The extent of a block, followed from the line at `offset` on with `depth` blocks open. -/
def keywordExtentFrom : (offset depth : Nat) → List (List Char) → Nat
  | _, _, [] => 1
  | offset, depth, raw :: rest =>
    let line := dropComment raw
    let left := (if opensBlock line then depth + 1 else depth) - closings line
    if left = 0 then offset + 1 else keywordExtentFrom (offset + 1) left rest

/-- The number of lines from a definition, the first of the lines, through its `end`, and one if there is none within
the window. -/
def keywordExtent (window : Nat) : List (List Char) → Nat
  | [] => 1
  | header :: rest =>
    if (endlessDefinition.matchStart header).isSome then 1
    else keywordExtentFrom 0 0 ((header :: rest).take window)

end FileGraph.Source
