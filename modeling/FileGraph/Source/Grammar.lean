import FileGraph.Source.Extent.Braces
import FileGraph.Source.Import
import FileGraph.Source.Inventory
/-!
# Grammar — what is known of a language

A grammar says which lines hold a function's signature and which name it has, how far the function extends, and by
which specifiers a text names other files.  Everything else is common to all languages: the first signature of each
admissible name is recorded (`inventory`), and text with a NUL character is refused (`analyze`).
-/
namespace FileGraph.Source

open Text

/-- What is known of a language. -/
structure Grammar where
  /-- The words beyond those of control flow that are no function names. -/
  reserved  : List String
  /-- The name of the function whose signature a line holds. -/
  signature : List Char → Option (List Char)
  /-- The number of lines of the function whose signature is the first of the lines. -/
  extent    : Limits → List (List Char) → Nat
  /-- The specifiers of a text. -/
  imports   : List Char → List String

/-- The functions and the specifiers of one file. -/
structure Analysis where
  functions : Inventory
  imports   : List String
  deriving DecidableEq

/-- The analysis of a file in which nothing is known. -/
def Analysis.empty : Analysis := ⟨.empty, []⟩

/-- Why a text is not analysed. -/
inductive Refusal where
  /-- The text has a NUL character, as only binary files do. -/
  | binary
  deriving DecidableEq, Repr

def Refusal.reason : Refusal → String
  | .binary => "binary content"

/-- What is said of the refused text of a file. -/
def Refusal.message (path : String) (r : Refusal) : String := "analysis error in " ++ path ++ ": " ++ r.reason

/-- Whether a text is free of NUL characters. -/
def isText (content : List Char) : Bool := !content.contains '\x00'

namespace Grammar

/-- Adds the functions of the lines to an inventory; `index` lines stand before them. -/
def inventoryFrom (g : Grammar) (limits : Limits) : (index : Nat) → List (List Char) → Inventory → Inventory
  | _, [], t => t
  | index, line :: rest, t =>
    match g.signature line with
    | none => inventoryFrom g limits (index + 1) rest t
    | some name =>
      let name := String.ofList name
      let t :=
        if t.wants g.reserved name then t.record g.reserved name index (g.extent limits (line :: rest)) else t
      inventoryFrom g limits (index + 1) rest t

/-- The functions of a text. -/
def inventory (g : Grammar) (limits : Limits) (content : List Char) : Inventory :=
  g.inventoryFrom limits 0 (lines content) .empty

/-- The functions and specifiers of a text. -/
def analyze (g : Grammar) (limits : Limits) (content : List Char) : Except Refusal Analysis :=
  if isText content then .ok ⟨g.inventory limits content, g.imports content⟩ else .error .binary

end Grammar

/-! ## Pieces of patterns -/

namespace Shape

open Text.Pattern

/-- A character that may start a name. -/
def isNameStart (c : Char) : Bool := c.isAlpha || c == '_'

/-- A character of none of the given ones. -/
def noneOf (s : String) (c : Char) : Bool := !s.toList.contains c

/-- A character of one of the given ones. -/
def someOf (s : String) (c : Char) : Bool := s.toList.contains c

/-- A name: a letter or `_` and then characters of words. -/
def name : Pattern := one isNameStart ++ many 0 isWordChar

/-- Text between an opening and a closing delimiter, up to the first closing one. -/
def enclosed (opening closing : Char) : Pattern :=
  text [opening] ++ many 0 (· != closing) ++ text [closing]

/-- White space around an optional part, and a word of the given ones before it, as often as possible. -/
def modifiers (words : List String) : Pattern := star (anyOf words ++ blanks1)

/-- A text in single or double quotes, captured in the first slot. -/
def quotedSlot : Pattern :=
  one (someOf "'\"") ++ capture 1 (many 1 (noneOf "'\"")) ++ one (someOf "'\"")

end Shape

end FileGraph.Source
