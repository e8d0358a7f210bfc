import Std.Data.HashMap
import Std.Data.HashSet
/-!
# Cycle — whether dependencies run in a circle

The edges are followed in depth from one node after another.  A node is finished once all of its edges have been
followed, and everything they lead to is finished.  An edge that leads to a node on the way, reached but not finished,
closes a circle.  What is finished on the way from one node is not followed again from the next.
-/
namespace FileGraph.Report

/-- The nodes to which the edges of each node lead, the latest edge first. -/
abbrev Successors := Std.HashMap Nat (List Nat)

def successors (edges : List (Nat × Nat)) : Successors :=
  edges.foldl (fun t e => t.insert e.1 (e.2 :: t.getD e.1 [])) {}

/-- The nodes that a search has reached, and those among them that are finished. -/
structure Search where
  reached  : Std.HashSet Nat
  finished : Std.HashSet Nat

namespace Search

def start : Search := ⟨{}, {}⟩

/-- Finishes a node and all that can be reached from it, unless an edge closes a circle.  At most `depth` nodes can be
on the way at once. -/
def visit (next : Nat → List Nat) : (depth : Nat) → Search → Nat → Option Search
  | 0, _, _ => none
  | depth + 1, s, u =>
    if s.reached.contains u then
      if s.finished.contains u then some s else none
    else
      ((next u).foldlM (visit next depth) { s with reached := s.reached.insert u }).map fun s =>
        { s with finished := s.finished.insert u }

end Search

/-- Whether the edges between so many nodes run in a circle. -/
def hasCycle (count : Nat) (edges : List (Nat × Nat)) : Bool :=
  let table := successors edges
  ((List.range count).foldlM (Search.visit (fun u => table.getD u []) (count + 1)) .start).isNone

end FileGraph.Report
