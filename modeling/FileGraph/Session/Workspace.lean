import FileGraph.Graph.Document
import FileGraph.Repository
import FileGraph.Session.Background
/-!
# Workspace — graphs being made, changed and categorized

A workspace holds a builder, the graphs that have been made, a session and its background tasks.  Graphs come from the
builder, from documents and from archives; each gets an epoch larger than all before it, and a failed attempt uses none
up.  Graphs may be changed freely afterwards, and the session has copies of its own.
-/
namespace FileGraph

open Categorization (Failure)

/-- Graphs in the making, graphs that are made, and the session. -/
structure Workspace where
  /-- The number of graphs that have been made, which is the largest epoch so far. -/
  made       : Nat
  builder    : Builder
  graphs     : List Graph
  session    : Session
  background : Background
  cache      : Cache
  storage    : Storage

namespace Workspace

/-- Nothing made yet. -/
def empty : Workspace := ⟨0, .empty, [], .empty, .empty, .inMemory, .empty⟩

def nextEpoch (w : Workspace) : Epoch := w.made + 1

/-- Keeps a new graph, and gives its position. -/
def keep (w : Workspace) (g : Graph) : Workspace × Nat :=
  ({ w with made := w.made + 1, graphs := w.graphs ++ [g] }, w.graphs.length)

/-! ## Making graphs -/

def addNode (w : Workspace) (n : FileNode) : Workspace × Nat :=
  let (b, i) := w.builder.addNode n
  ({ w with builder := b }, i)

def addEdge (w : Workspace) (e : Edge) : Workspace × Option Nat :=
  let (b, i) := w.builder.addEdge e
  ({ w with builder := b }, i)

/-- Finishes the builder; an empty one takes its place. -/
def build (w : Workspace) : Workspace × Nat :=
  { w with builder := .empty }.keep (w.builder.build w.nextEpoch)

def parse (w : Workspace) (text : String) : Except Graph.ReadError (Workspace × Nat) :=
  (Graph.read w.nextEpoch text).map w.keep

def analyze (w : Workspace) (settings : Settings) (data : ByteArray) (root : Option String) :
    Except Archive.Fault (Workspace × Nat) :=
  (Repository.analyze settings w.cache w.storage w.nextEpoch data root).map fun (g, cache, storage) =>
    { w with cache := cache, storage := storage }.keep g

/-! ## Changing graphs -/

def change (w : Workspace) (i : Nat) (f : Graph → Graph) : Workspace := { w with graphs := w.graphs.modify i f }

/-- Puts a node into a category, whether it exists or not. -/
def setCategory (node category : Nat) (g : Graph) : Graph :=
  { g with nodes := g.nodes.modify node fun n => { n with category := category } }

/-- Replaces the category names. -/
def setCategories (categories : List String) (g : Graph) : Graph := { g with categories := categories }

/-- Adds an edge, whatever it is. -/
def pushEdge (e : Edge) (g : Graph) : Graph := { g with edges := g.edges ++ [e] }

/-- Categorizes the graph at a position, and gives the number of files outside the first category. -/
def categorize (w : Workspace) (i : Nat) (c : Categorization) : Except Failure (Workspace × Nat) :=
  match w.graphs[i]? with
  | none => .ok (w, 0)
  | some g => (g.categorize c).map fun (g, assigned) => (w.change i fun _ => g, assigned)

/-! ## The session -/

/-- Installs a copy of the graph at a position, and gives its epoch. -/
def install (w : Workspace) (i : Nat) : Workspace × Option Epoch :=
  match w.graphs[i]? with
  | none => (w, none)
  | some g => ({ w with session := w.session.install g }, some g.epoch)

def merge (w : Workspace) (epoch : Epoch) (answer : Except Failure Categorization) : Workspace × Outcome :=
  let (s, outcome) := w.session.merge epoch answer
  ({ w with session := s }, outcome)

/-- Asks for a categorization of the current graph, and gives the number of the task. -/
def spawn (w : Workspace) (categorizer : Categorizer) (delay : Option Nat) (timeout : Nat) : Workspace × Option Nat :=
  match Task.spawn? w.session categorizer delay timeout with
  | none => (w, none)
  | some t =>
    let (b, i) := w.background.add t
    ({ w with background := b }, some i)

def await (w : Workspace) (number : Nat) : Workspace × Option Outcome :=
  let (s, b, outcome) := w.background.await w.session number
  ({ w with session := s, background := b }, outcome)

end Workspace

end FileGraph
