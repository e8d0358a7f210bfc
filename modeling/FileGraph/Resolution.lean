import FileGraph.Graph.Basic
import FileGraph.Path
import FileGraph.Text.Words
import FileGraph.Weight
import Std.Data.HashMap
import Std.Data.TreeMap
/-!
# Resolution — which file depends on which

A file depends on another as strongly as it refers to it: an import of the other's stem scores a fixed amount, and each
place where the stem stands alone in the text scores one.  Files with the same stem are all referred to at once, and
nothing refers to itself or to a file without a stem.

Stems are looked up in an index.  One pass over the words of a text serves every stem that is a plain name; each other
stem is searched for by itself.  Index and word counts are hash tables, so the order in which they are gone through is
open (`Order`).

Counts and scores have 32 bits.  What becomes of a larger sum is up to the build (`Adder`): sums wrap in a release, and
where they are checked the program stops.
-/
namespace FileGraph

open Text

/-- What resolution has to know of a file. -/
structure Referrer where
  filepath : String
  content  : String
  imports  : List String

/-- The edges of a list of files, and for each file the paths of the files it depends on. -/
structure Resolution where
  edges        : List Edge
  dependencies : List (List String)
  deriving DecidableEq

namespace Resolution

/-- The longest start of a text that has at most so many bytes. -/
def takeBytes : Nat → List Char → List Char
  | _, [] => []
  | budget, c :: cs => if c.utf8Size ≤ budget then c :: takeBytes (budget - c.utf8Size) cs else []

/-- The part of a file in which names are searched for. -/
def scanned (maxScanBytes : Option Nat) (content : String) : List Char :=
  match maxScanBytes with
  | some budget => takeBytes budget content.toList
  | none => content.toList

/-- The positions of the files with each stem. -/
abbrev StemIndex := Std.HashMap String (List Nat)

/-- Adds the positions of stems to an index; `position` stems stand before them. -/
def indexFrom : (position : Nat) → List String → StemIndex → StemIndex
  | _, [], index => index
  | position, stem :: stems, index =>
    indexFrom (position + 1) stems
      (if stem = "" then index else index.insert stem (position :: index.getD stem []))

/-- The indexed stems that are no plain names. -/
def irregularStems (index : StemIndex) : List String :=
  index.keys.filter fun s => !isPlainName s.toList

/-! ## Sums -/

/-- How a build adds numbers of 32 bits. -/
abbrev Adder (m : Type → Type) := UInt32 → UInt32 → m UInt32

/-- A sum that takes more than 32 bits keeps the low ones. -/
def wrapping : Adder Id := fun a b => pure (a + b)

/-- A sum that takes more than 32 bits stops the program. -/
def checked : Adder Option := fun a b => if a.toNat + b.toNat < UInt32.size then some (a + b) else none

/-- The raw scores of the files that are referred to, in the order of their positions. -/
abbrev Scores := Std.TreeMap Nat UInt32

/-- In which order the irregular stems and the words of each file are gone through: a table has no order of its own. -/
structure Order where
  stems      : List String → List String
  words      : (source : Nat) → List (String × UInt32) → List (String × UInt32)
  stems_perm : ∀ ss, (stems ss).Perm ss
  words_perm : ∀ source ws, (words source ws).Perm ws

/-- The order in which the tables list their entries. -/
def Order.asListed : Order := ⟨id, fun _ => id, fun _ => .rfl, fun _ _ => .rfl⟩

/-- The amounts that references add for the positions of other files.  A reference of no amount adds nothing. -/
def additions (index : StemIndex) (source : Nat) (references : List (String × UInt32)) : List (Nat × UInt32) :=
  references.flatMap fun r =>
    if r.2 = 0 then [] else ((index.getD r.1 []).filter (· != source)).map fun target => (target, r.2)

/-- The edges of the rows that start at a source. -/
def edgesFrom : (source : Nat) → List (List (Nat × UInt32)) → List Edge
  | _, [] => []
  | source, row :: rows =>
    row.map (fun t => ⟨source, t.1, Weight.ofRaw t.2.toNat⟩) ++ edgesFrom (source + 1) rows

section Adder

variable {m : Type → Type} [Monad m] (add : Adder m)

/-- The counts of words with one more word. -/
def countWord (counts : Std.HashMap String UInt32) (word : List Char) : m (Std.HashMap String UInt32) := do
  return counts.insert (.ofList word) (← add (counts.getD (.ofList word) 0) 1)

/-- How often each word of a text occurs. -/
def countWords (text : List Char) : m (Std.HashMap String UInt32) := (words text).foldlM (countWord add) {}

/-- The amounts by which a file refers to stems: its imports, its words and its mentions of irregular stems. -/
def references (importScore : UInt32) (irregular : List String)
    (order : List (String × UInt32) → List (String × UInt32)) (imports : List String) (text : List Char) :
    m (List (String × UInt32)) := do
  let counts ← countWords add text
  return imports.map (fun s => (Path.specifierName s, importScore)) ++ order counts.toList ++
    irregular.map fun s => (s, .ofNat (mentions s.toList text))

/-- The scores with an amount added for a position. -/
def addTo (scores : Scores) (amount : Nat × UInt32) : m Scores := do
  return scores.insert amount.1 (← add (scores.getD amount.1 0) amount.2)

/-- The raw scores by which a file refers to others, in order. -/
def row (order : Order) (importScore : UInt32) (maxScanBytes : Option Nat) (index : StemIndex)
    (irregular : List String) (source : Nat) (f : Referrer) : m (List (Nat × UInt32)) := do
  let references ←
    references add importScore irregular (order.words source) f.imports (scanned maxScanBytes f.content)
  let scores ← (additions index source references).foldlM (addTo add) {}
  return scores.toList

/-- The rows of all files, as a build adds them up. -/
def rowsBy (order : Order) (importScore : UInt32) (maxScanBytes : Option Nat) (files : List Referrer) :
    m (List (List (Nat × UInt32))) :=
  let index := indexFrom 0 (files.map fun f => Path.stem f.filepath) {}
  let irregular := order.stems (irregularStems index)
  files.zipIdx.mapM fun f => row add order importScore maxScanBytes index irregular f.2 f.1

/-- The edges of a list of files, in the order of their sources and targets, as a build adds them up. -/
def resolveBy (order : Order) (importScore : UInt32) (maxScanBytes : Option Nat) (files : List Referrer) :
    m Resolution := do
  let rows ← rowsBy add order importScore maxScanBytes files
  return {
    edges := edgesFrom 0 rows
    dependencies := rows.map fun row => row.filterMap fun t => files[t.1]?.map (·.filepath) }

end Adder

/-- The rows of all files, where sums wrap. -/
def rows (order : Order) (importScore : UInt32) (maxScanBytes : Option Nat) (files : List Referrer) :
    List (List (Nat × UInt32)) :=
  (rowsBy wrapping order importScore maxScanBytes files).run

/-- The edges of a list of files, where sums wrap. -/
def resolveIn (order : Order) (importScore : UInt32) (maxScanBytes : Option Nat) (files : List Referrer) : Resolution :=
  (resolveBy wrapping order importScore maxScanBytes files).run

/-- The edges of a list of files, gone through as the tables list them. -/
def resolve (importScore : UInt32) (maxScanBytes : Option Nat) (files : List Referrer) : Resolution :=
  resolveIn .asListed importScore maxScanBytes files

end Resolution

end FileGraph
