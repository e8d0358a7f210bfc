import FileGraph.Source.Inventory
import FileGraph.Text.Lines
/-!
# Graph — files and their dependencies

A graph lists files and weighted edges between them; the ends of an edge are positions in the list of files.  Each file
has a category, a position in the list of category names.  The epoch tells one construction from another: a later graph
has a larger one.
-/
namespace FileGraph

open Source

structure FileNode where
  filepath      : String
  numLines      : Nat
  numCharacters : Nat
  category      : Nat
  functions     : Inventory
  description   : String
  dependencies  : List String
  deriving DecidableEq

/-- The file with a path and a content, in the first category and without functions and dependencies. -/
def FileNode.ofContent (filepath content : String) : FileNode where
  filepath := filepath
  numLines := Text.lineCount content.toList
  numCharacters := content.toList.length
  category := 0
  functions := .empty
  description := ""
  dependencies := []

/-- A dependency of one file on another. -/
structure Edge where
  source : Nat
  target : Nat
  weight : Float
  deriving DecidableEq

/-- A number that tells graphs apart; later constructions have larger ones. -/
abbrev Epoch := Nat

/-- Files, their categories and their dependencies. -/
structure Graph where
  categories : List String
  nodes      : List FileNode
  edges      : List Edge
  epoch      : Epoch
  deriving DecidableEq

/-- The name of the category in which every file starts. -/
def defaultCategory : String := "General"

namespace Graph

/-- The position of the file with a path. -/
def nodeIndex? (g : Graph) (filepath : String) : Option Nat :=
  g.nodes.findIdx? fun n => n.filepath == filepath

def filepaths (g : Graph) : List String := g.nodes.map (·.filepath)

/-- The name of a file's category.  A position without a name stands for the default category. -/
def categoryName (g : Graph) (n : FileNode) : String :=
  (g.categories[n.category]?).getD defaultCategory

end Graph

end FileGraph
