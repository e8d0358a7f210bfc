import FileGraph.NameMap
/-!
# Inventory — the functions of one file

An inventory keeps for each function name the lines of the first signature that was seen for it.  Words of control
flow are never function names, and each grammar reserves some more.
-/
namespace FileGraph.Source

/-- The lines of a function: its first line, counted from one, and the number of its lines. -/
structure Span where
  firstLine : Nat
  lineCount : Nat
  deriving DecidableEq, Repr

/-- The functions of a file by name. -/
abbrev Inventory := NameMap Span

/-- Words that look like a function's name before an argument list and never are. -/
def controlWords : List String := ["if", "for", "while", "switch", "catch"]

namespace Inventory

/-- Whether a signature of this name would still be recorded. -/
def wants (reserved : List String) (t : Inventory) (name : String) : Bool :=
  name != "" && !controlWords.contains name && !reserved.contains name && !t.contains name

/-- Records a function whose signature stands `index` lines below the first line and which has `count` lines; a
function has at least one. -/
def record (reserved : List String) (t : Inventory) (name : String) (index count : Nat) : Inventory :=
  if wants reserved t name then t.insert name ⟨index + 1, max count 1⟩ else t

end Inventory

end FileGraph.Source
