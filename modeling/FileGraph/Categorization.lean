import FileGraph.Graph.Basic
import FileGraph.Json.Reader
import FileGraph.Path
/-!
# Categorization — which file belongs to which category

An adapter answers a list of paths with category names and an assignment of names to paths.  An answer without a
category, or with a blank name, is refused (`check`); every other one can be applied to a graph: a file whose name is
missing or unknown goes to the first category.
-/
namespace FileGraph

/-- Category names, and the name that each path is assigned to. -/
structure Categorization where
  categories  : List String
  assignments : NameMap String
  deriving DecidableEq

namespace Categorization

/-- Why an adapter's answer cannot be used. -/
inductive Failure where
  | failed (reason : String)
  | malformed (reason : String)
  /-- The answer is no document of the right shape. -/
  | unreadable
  | timedOut (seconds : Nat)
  deriving DecidableEq, Repr

def Failure.message : Failure → String
  | .failed reason => "categorization failed: " ++ reason
  | .malformed reason => "malformed categorization response: " ++ reason
  | .unreadable => "malformed categorization response: not a document of the right shape"
  | .timedOut seconds => "categorization timed out after " ++ toString seconds ++ "s"

/-- Whether nothing is left of a name without its white space. -/
def isBlankName (name : String) : Bool := (Text.trim name.toList).isEmpty

/-- Refuses an answer without a category or with a blank name. -/
def check (c : Categorization) : Except Failure Unit :=
  if c.categories.isEmpty then .error (.malformed "category list is empty")
  else if c.categories.any isBlankName then .error (.malformed "category names must not be blank")
  else .ok ()

open Json in
/-- The answer of a document. -/
def ofJson? (j : Json) : Option Categorization :=
  match j.record? ["categories", "assignments"] with
  | some [categories, assignments] => do
    let categories ← required? (listOf? string?) categories
    let assignments ← optional? (members? string?) [] assignments
    return ⟨categories, .ofList assignments⟩
  | _ => none

/-- The answer that a text describes. -/
def read (text : String) : Except Failure Categorization :=
  match (Json.read? text.toList).bind ofJson? with
  | none => .error .unreadable
  | some c =>
    match c.check with
    | .ok () => .ok c
    | .error f => .error f

/-- The position of each name.  The names are put in from the last one to the first, so that of equal ones the first
counts. -/
def positions (c : Categorization) : NameMap Nat := .ofList c.categories.zipIdx.reverse

/-- The category of a path: the position of the name that it is assigned to, or the first category. -/
def categoryOf (c : Categorization) (filepath : String) : Nat :=
  ((c.assignments.get? filepath).bind c.positions.get?).getD 0

/-- Puts files into their categories, one after another, and counts those outside the first category. -/
def repoint (c : Categorization) : List FileNode → List FileNode × Nat
  | [] => ([], 0)
  | n :: ns =>
    let n := { n with category := c.categoryOf n.filepath }
    let (ns, outside) := c.repoint ns
    (n :: ns, if n.category = 0 then outside else outside + 1)

end Categorization

/-- Changes a graph to the categories of an answer: first its files, then the list of names.  Gives the number of files
outside the first category. -/
def Graph.adopt (c : Categorization) : EStateM Categorization.Failure Graph Nat := do
  match c.check with
  | .error f => throw f
  | .ok () =>
    let outside ← modifyGet fun g =>
      let (nodes, outside) := c.repoint g.nodes
      (outside, { g with nodes := nodes })
    modify fun g => { g with categories := c.categories }
    return outside

/-- A graph with the categories of an answer, and the number of files outside the first category. -/
def Graph.categorize (g : Graph) (c : Categorization) : Except Categorization.Failure (Graph × Nat) :=
  match (Graph.adopt c).run g with
  | .ok outside g => .ok (g, outside)
  | .error f _ => .error f

/-! ## Adapters -/

/-- What answers a list of paths with a categorization. -/
structure Categorizer where
  name   : String
  answer : List String → Except Categorization.Failure Categorization

namespace Categorizer

/-- Always the same answer. -/
def fixed (c : Categorization) : Categorizer := ⟨"static", fun _ => .ok c⟩

/-- The group of a path: its top folder, or the default category. -/
def groupOf (filepath : String) : String := (Path.topFolder? filepath).getD defaultCategory

/-- Groups paths by their top folders; the default category comes first and the others follow in order. -/
def byFolder (filepaths : List String) : Categorization :=
  let groups : NameMap Unit := .ofList (filepaths.map fun p => (groupOf p, ()))
  ⟨defaultCategory :: groups.names.filter (· != defaultCategory), .ofList (filepaths.map fun p => (p, groupOf p))⟩

/-- The adapter that groups files by their top folders. -/
def directory : Categorizer := ⟨"directory", fun filepaths => .ok (byFolder filepaths)⟩

end Categorizer

end FileGraph
