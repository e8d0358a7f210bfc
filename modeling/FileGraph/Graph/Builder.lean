import FileGraph.Graph.Basic
/-!
# Builder — graphs made step by step

Files keep the positions at which they were added; a path that is already there keeps its first file.  An edge is taken
only if both ends exist and differ, its weight is above zero and there is none yet from its source to its target.  A
builder looks up both in indices of its own: the positions of the paths, and the pairs of files that are joined.
-/
namespace FileGraph

/-- A graph in the making. -/
structure Builder where
  nodes     : List FileNode
  edges     : List Edge
  /-- The position of each path. -/
  positions : NameMap Nat
  /-- The source and the target of each edge. -/
  pairs     : List (Nat × Nat)

namespace Builder

def empty : Builder := ⟨[], [], .empty, []⟩

/-- The position of the file with a path. -/
def nodeIndex? (b : Builder) (filepath : String) : Option Nat := b.positions.get? filepath

/-- Adds a file in the first category, unless its path is there already, and gives the position of the path. -/
def addNode (b : Builder) (n : FileNode) : Builder × Nat :=
  match b.nodeIndex? n.filepath with
  | some i => (b, i)
  | none =>
    let i := b.nodes.length
    ({ b with nodes := b.nodes ++ [{ n with category := 0 }], positions := b.positions.insert n.filepath i }, i)

/-- Whether an edge can be added. -/
def accepts (b : Builder) (e : Edge) : Bool :=
  decide (e.source < b.nodes.length) && decide (e.target < b.nodes.length) && e.source != e.target &&
    decide (0.0 < e.weight) && !b.pairs.contains (e.source, e.target)

/-- Adds an edge and gives its position, if it can be added. -/
def addEdge (b : Builder) (e : Edge) : Builder × Option Nat :=
  if b.accepts e then
    ({ b with edges := b.edges ++ [e], pairs := (e.source, e.target) :: b.pairs }, some b.edges.length)
  else (b, none)

/-- The graph that has been made. -/
def build (b : Builder) (epoch : Epoch) : Graph := ⟨[defaultCategory], b.nodes, b.edges, epoch⟩

end Builder

end FileGraph
