import FileGraph.Categorization
/-!
# Session — the current graph and late answers

A session holds one graph.  An answer that was asked for under an epoch is merged only while the graph of that epoch is
the current one (`merge`); any other outcome leaves the session as it was.
-/
namespace FileGraph

open Categorization (Failure)

/-- The graph that is shown at present, if there is one. -/
structure Session where
  current : Option Graph
  deriving DecidableEq

/-- What becomes of an answer. -/
inductive Outcome where
  /-- It is applied, with so many files outside the first category. -/
  | applied (assigned : Nat)
  /-- It belongs to another graph than the current one. -/
  | stale (asked : Epoch) (current : Option Epoch)
  /-- The adapter failed or its answer is malformed. -/
  | failed (cause : Failure)
  deriving DecidableEq, Repr

def Outcome.isApplied : Outcome → Bool
  | .applied _ => true
  | _ => false

namespace Session

def empty : Session := ⟨none⟩

/-- Makes a graph the current one. -/
def install (_ : Session) (g : Graph) : Session := ⟨some g⟩

def currentEpoch? (s : Session) : Option Epoch := s.current.map (·.epoch)

/-- Merges an answer that was asked for under an epoch. -/
def merge (s : Session) (epoch : Epoch) (answer : Except Failure Categorization) : Session × Outcome :=
  match answer with
  | .error cause => (s, .failed cause)
  | .ok c =>
    match s.current with
    | none => (s, .stale epoch none)
    | some g =>
      if g.epoch = epoch then
        match g.categorize c with
        | .ok (g', assigned) => (⟨some g'⟩, .applied assigned)
        | .error cause => (s, .failed cause)
      else (s, .stale epoch (some g.epoch))

end Session

end FileGraph
