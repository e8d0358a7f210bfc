import FileGraph.Decimal.Places
import FileGraph.Graph.Basic
import FileGraph.Language
import FileGraph.Report.Cycle
/-!
# Summary — a graph at a glance

A summary in Markdown: totals, whether there is a cycle, how many files there are of each language and category, and the
files on which others depend most, by the total weight of their incoming edges.
-/
namespace FileGraph.Report

/-- How often each name occurs. -/
def tally (names : List String) : NameMap Nat :=
  names.foldl (fun t n => t.insert n ((t.get? n).getD 0 + 1)) .empty

/-! ## Ranking -/

/-- A sum of weights.  Opposite infinities have no sum: from the step on at which they meet, the sum is void. -/
structure TotalWeight where
  value  : Float
  isVoid : Bool

namespace TotalWeight

def zero : TotalWeight := ⟨0.0, false⟩

/-- The sum with one more weight. -/
def add (t : TotalWeight) (weight : Float) : TotalWeight :=
  let value := t.value + weight
  ⟨value, t.isVoid || value.isNaN && !t.value.isNaN && !weight.isNaN⟩

/-- The place of a sum among all: void ones are below, and those of weights that are no numbers above all others. -/
def orderKey (t : TotalWeight) : Int :=
  if t.isVoid then -(Nat.pow 2 63 : Nat) else Decimal.orderKey t.value

end TotalWeight

/-- A file on which others depend: its position, the total weight of its incoming edges, and their number. -/
structure Rank where
  index      : Nat
  weight     : TotalWeight
  dependents : Nat

/-- The weights of the edges to a file, latest first. -/
def incoming (g : Graph) (index : Nat) : List Float :=
  (g.edges.reverse.filter fun e => e.target == index).map (·.weight)

def rankOf (g : Graph) (index : Nat) : Rank :=
  ⟨index, (incoming g index).foldl .add .zero, (incoming g index).length⟩

/-- The files on which others depend, the heaviest first and of equal ones the earlier. -/
def ranking (g : Graph) : List Rank :=
  (((List.range g.nodes.length).map (rankOf g)).filter fun r => r.dependents != 0).mergeSort
    fun a b => decide (b.weight.orderKey ≤ a.weight.orderKey)

/-! ## Text -/

/-- A titled list of counts; nothing if there are none. -/
def countList (title : String) (counts : NameMap Nat) : List String :=
  if counts.entries.isEmpty then []
  else ["", "## " ++ title, ""] ++ counts.entries.map fun c => "- " ++ c.1 ++ ": " ++ toString c.2

/-- The row of a file in the ranking. -/
def row (g : Graph) (r : Rank) : String :=
  "| " ++ ((g.nodes[r.index]?).map (·.filepath)).getD "" ++ " | " ++ toString r.dependents ++ " | " ++
    .ofList (Decimal.twoPlaces r.weight.value) ++ " |"

/-- The table of the first files of the ranking; nothing if nobody depends on anything. -/
def rankingTable (g : Graph) (top : Nat) : List String :=
  match ranking g with
  | [] => []
  | ranked =>
    ["", "## Most depended-upon files", "", "| File | Dependents | Weight |", "|---|---|---|"] ++
      (ranked.take top).map (row g)

/-- The sum of numbers. -/
def total (ns : List Nat) : Nat := ns.foldr (· + ·) 0

/-- The number of files that are ranked where nothing else is said. -/
def defaultTop : Nat := 10

/-- The heading and what can be said of the graph as a whole. -/
def overview (g : Graph) : List String :=
  ["# Repository graph", "",
    "- Files: " ++ toString g.nodes.length,
    "- Lines: " ++ toString (total (g.nodes.map (·.numLines))),
    "- Functions: " ++ toString (total (g.nodes.map fun n => n.functions.size)),
    "- Dependencies: " ++ toString g.edges.length,
    "- Cycles: " ++ if hasCycle g.nodes.length (g.edges.map fun e => (e.source, e.target)) then "yes" else "none"]

def summaryLines (g : Graph) (top : Nat) : List String :=
  overview g ++ countList "Languages" (tally (g.nodes.map fun n => (Language.ofPath n.filepath).tag)) ++
    countList "Categories" (tally (g.nodes.map g.categoryName)) ++ rankingTable g top

def summary (g : Graph) (top : Nat) : String :=
  String.join ((summaryLines g top).map (· ++ "\n"))

end FileGraph.Report
