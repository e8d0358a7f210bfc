import FileGraph.Graph.Validity
import FileGraph.Json.Reader
import FileGraph.Json.Writer
/-!
# Document — graphs as JSON

A graph is written as its categories, nodes and edges; the epoch is not written, and a graph that is read gets a new
one.  Reading allows what writing never leaves out: a node's category, functions, description and dependencies.
-/
namespace FileGraph

open Json Source

namespace Source.Span

def toJson (s : Span) : Json :=
  .ofMembers [("line_start", .ofNat s.firstLine), ("line_count", .ofNat s.lineCount)]

def ofJson? (j : Json) : Option Span :=
  match j.record? ["line_start", "line_count"] with
  | some [firstLine, lineCount] => do
    let firstLine ← required? natural? firstLine
    let lineCount ← required? natural? lineCount
    return ⟨firstLine, lineCount⟩
  | _ => none

end Source.Span

namespace FileNode

def toJson (n : FileNode) : Json :=
  .ofMembers [("filepath", .ofString n.filepath), ("num_lines", .ofNat n.numLines),
    ("num_characters", .ofNat n.numCharacters), ("category", .ofNat n.category),
    ("functions", .ofMembers (n.functions.entries.map fun e => (e.1, e.2.toJson))),
    ("description", .ofString n.description), ("fileDependencies", .array (n.dependencies.map .ofString))]

def fields : List String :=
  ["filepath", "num_lines", "num_characters", "category", "functions", "description", "fileDependencies"]

def ofJson? (j : Json) : Option FileNode :=
  match j.record? fields with
  | some [filepath, numLines, numCharacters, category, functions, description, dependencies] => do
    let filepath ← required? string? filepath
    let numLines ← required? natural? numLines
    let numCharacters ← required? natural? numCharacters
    let category ← optional? natural? 0 category
    let functions ← optional? (members? Span.ofJson?) [] functions
    let description ← optional? string? "" description
    let dependencies ← optional? (listOf? string?) [] dependencies
    return ⟨filepath, numLines, numCharacters, category, .ofList functions, description, dependencies⟩
  | _ => none

end FileNode

namespace Edge

def toJson (e : Edge) : Json :=
  .ofMembers [("source", .ofNat e.source), ("target", .ofNat e.target), ("weight", .ofFloat e.weight)]

def ofJson? (j : Json) : Option Edge :=
  match j.record? ["source", "target", "weight"] with
  | some [source, target, weight] => do
    let source ← required? natural? source
    let target ← required? natural? target
    let weight ← required? float? weight
    return ⟨source, target, weight⟩
  | _ => none

end Edge

namespace Graph

def toJson (g : Graph) : Json :=
  .ofMembers [("categories", .array (g.categories.map .ofString)), ("nodes", .array (g.nodes.map (·.toJson))),
    ("edges", .array (g.edges.map (·.toJson)))]

/-- The graph of a document, with an epoch. -/
def ofJson? (epoch : Epoch) (j : Json) : Option Graph :=
  match j.record? ["categories", "nodes", "edges"] with
  | some [categories, nodes, edges] => do
    let categories ← required? (listOf? string?) categories
    let nodes ← required? (listOf? FileNode.ofJson?) nodes
    let edges ← required? (listOf? Edge.ofJson?) edges
    return ⟨categories, nodes, edges, epoch⟩
  | _ => none

/-- The two layouts in which a graph is written. -/
inductive Layout where
  | pretty | compact
  deriving DecidableEq, Repr

def write (layout : Layout) (g : Graph) : String :=
  match layout with
  | .pretty => .ofList g.toJson.pretty
  | .compact => .ofList g.toJson.compact

/-- Why a text is no graph. -/
inductive ReadError where
  /-- The text is no document of the right shape. -/
  | notADocument
  /-- The graph breaks a rule. -/
  | invalid (fault : Fault)
  deriving DecidableEq

/-- The graph that a text describes, with an epoch, if it is valid. -/
def read (epoch : Epoch) (text : String) : Except ReadError Graph :=
  match (Json.read? text.toList).bind (ofJson? epoch) with
  | none => .error .notADocument
  | some g =>
    match g.check with
    | .ok () => .ok g
    | .error f => .error (.invalid f)

end Graph

end FileGraph
