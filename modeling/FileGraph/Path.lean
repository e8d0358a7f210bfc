import FileGraph.Text.Lines
/-!
# Path — the parts of a file's path

Paths are relative and use `/`.  The last segment of a path is its basename, and the part of a basename before its
last dot is its stem, unless that part is empty: a name such as `.env` has no extension.

An import specifier asks for a file by `specifierName`: the stem of its last segment, so that both spellings of an
import, with and without the extension, ask for the same file.
-/
namespace FileGraph.Path

open Text

def basename (path : List Char) : List Char := lastPiece '/' path

/-- A basename's stem and extension, if it has an extension. -/
def splitExtension? (name : List Char) : Option (List Char × List Char) :=
  match cutLast? '.' name with
  | some (c :: cs, ext) => some (c :: cs, ext)
  | _ => none

/-- A basename without its extension. -/
def dropExtension (name : List Char) : List Char :=
  match splitExtension? name with
  | some (stem, _) => stem
  | none => name

/-- The name of a file without folders and extension. -/
def stem (path : String) : String :=
  .ofList (dropExtension (basename path.toList))

def extension? (path : String) : Option String :=
  (splitExtension? (basename path.toList)).map fun p => .ofList p.2

/-- The stem that an import specifier asks for. -/
def specifierName (specifier : String) : String :=
  .ofList (dropExtension (basename (dropEndWhile (· == '/') (trim specifier.toList))))

/-- The top folder of a path, if it has a non-empty one. -/
def topFolder? (path : String) : Option String :=
  match cut? '/' path.toList with
  | some (c :: cs, _) => some (.ofList (c :: cs))
  | _ => none

end FileGraph.Path
