import FileGraph.Decimal.Places
import FileGraph.Graph.Basic
/-!
# Validity — what every graph has to satisfy

There is a category, paths are distinct, each file's category exists, both ends of each edge exist and each weight is
above zero.  `check` reports the first fault: files are looked at in order, a repeated path before a missing category,
and then edges in order, a missing end before a weight.
-/
namespace FileGraph.Graph

/-- What can be wrong with a graph. -/
inductive Fault where
  | noCategory
  | duplicatePath (filepath : String)
  | missingCategory (filepath : String) (category count : Nat)
  | missingNode (source target : Nat)
  | nonPositiveWeight (source target : Nat) (weight : Float)
  deriving DecidableEq

/-- The rule that is broken, and where. -/
def Fault.rule : Fault → String
  | .noCategory => "category list is empty"
  | .duplicatePath p => "duplicate filepath " ++ p
  | .missingCategory p category count =>
    p ++ " has category " ++ toString category ++ " but only " ++ toString count ++ " categories exist"
  | .missingNode s t => "edge " ++ toString s ++ " -> " ++ toString t ++ " references a missing node"
  | .nonPositiveWeight s t w =>
    "edge " ++ toString s ++ " -> " ++ toString t ++ " has non-positive weight " ++ .ofList (Decimal.plain w)

def Fault.message (f : Fault) : String := "invalid graph: " ++ f.rule

/-- The first fault of the files; `seen` are the paths before them. -/
def checkNodes (count : Nat) : (seen : List String) → List FileNode → Except Fault Unit
  | _, [] => .ok ()
  | seen, n :: ns =>
    if seen.contains n.filepath then .error (.duplicatePath n.filepath)
    else if count ≤ n.category then .error (.missingCategory n.filepath n.category count)
    else checkNodes count (n.filepath :: seen) ns

/-- The first fault of the edges between so many files. -/
def checkEdges (count : Nat) : List Edge → Except Fault Unit
  | [] => .ok ()
  | e :: es =>
    if count ≤ e.source ∨ count ≤ e.target then .error (.missingNode e.source e.target)
    else if 0.0 < e.weight then checkEdges count es
    else .error (.nonPositiveWeight e.source e.target e.weight)

def check (g : Graph) : Except Fault Unit :=
  if g.categories.isEmpty then .error .noCategory
  else
    match checkNodes g.categories.length [] g.nodes with
    | .error f => .error f
    | .ok () => checkEdges g.nodes.length g.edges

end FileGraph.Graph
