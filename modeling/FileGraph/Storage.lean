import FileGraph.NameMap
import FileGraph.Text.Lines
/-!
# Storage — folders and files

A storage maps the path of each folder to the files directly in it.  The path of the top folder is empty, and the path
of a folder in another is the other's path, a `/` and its name.  Files can only be written into folders that exist.
-/
namespace FileGraph

open Text

/-- Folders and the files in them. -/
structure Storage where
  folders : NameMap (NameMap (List UInt8))
  deriving DecidableEq

namespace Storage

/-- A storage with nothing but its top folder. -/
def empty : Storage := ⟨NameMap.empty.insert "" .empty⟩

/-- A storage with one folder in its top folder. -/
def ofFolder (name : String) (files : NameMap (List UInt8)) : Storage := ⟨empty.folders.insert name files⟩

/-- The path of what is in a folder under a name. -/
def child (folder name : String) : String := if folder = "" then name else folder ++ "/" ++ name

/-- The files directly in a folder, if it exists. -/
def files? (s : Storage) (folder : String) : Option (NameMap (List UInt8)) := s.folders.get? folder

def hasFolder (s : Storage) (folder : String) : Bool := s.folders.contains folder

/-- The bytes of the file in a folder under a name. -/
def read? (s : Storage) (folder name : String) : Option (List UInt8) := (s.files? folder).bind (·.get? name)

/-- The bytes that a name may have at most. -/
def maxNameBytes : Nat := 255

/-- Whether a name can be given to a file. -/
def isFileName (name : String) : Bool :=
  name != "" && name != "." && name != ".." && name.toList.all (fun c => c != '/' && c != '\x00') &&
    name.utf8ByteSize ≤ maxNameBytes

/-- Writes a file.  The folder has to exist, and the name must not belong to a folder. -/
def write? (s : Storage) (folder name : String) (bytes : List UInt8) : Option Storage :=
  match s.files? folder with
  | none => none
  | some files =>
    if isFileName name && !s.hasFolder (child folder name) then
      some ⟨s.folders.insert folder (files.insert name bytes)⟩
    else none

/-- Makes a folder in one that exists, unless it is there already; a file of its name is in the way. -/
def makeFolder? (s : Storage) (parent name : String) : Option Storage :=
  if s.hasFolder (child parent name) then some s
  else if isFileName name && (s.read? parent name).isNone && s.hasFolder parent then
    some ⟨s.folders.insert (child parent name) .empty⟩
  else none

def parent (folder : String) : String :=
  match cutLast? '/' folder.toList with
  | some p => .ofList p.1
  | none => ""

/-- Follows names from a folder on, where `..` leads to the folder that a folder is in, and makes the folders that are
missing.  Gives the path of the last one. -/
def makeFolders? : Storage → (folder : String) → List String → Option (Storage × String)
  | s, folder, [] => some (s, folder)
  | s, folder, name :: names =>
    if name = ".." then makeFolders? s (parent folder) names
    else (s.makeFolder? folder name).bind fun s => makeFolders? s (child folder name) names

/-- The storage without a folder and all that is in it. -/
def removeFolder (s : Storage) (folder : String) : Storage :=
  ⟨⟨s.folders.entries.filter fun e =>
      e.1 != folder && (dropStart? (folder.toList ++ ['/']) e.1.toList).isNone,
    s.folders.sorted.filter _⟩⟩

/-! ## Paths -/

/-- The parts of a path that name something: neither empty nor `.`. -/
def pathNames (path : String) : List String :=
  ((pieces '/' path.toList).map String.ofList).filter fun n => n != "" && n != "."

/-- Follows the names of a path through folders that exist; the last name need not. -/
def follow? (s : Storage) : (folder : String) → List String → Option (String × String)
  | _, [] => none
  | folder, [name] => if name = ".." then none else some (folder, name)
  | folder, name :: names =>
    let next := if name = ".." then parent folder else child folder name
    if s.hasFolder next then follow? s next names else none

/-- The folder and the name of the file with a path, which must not end like that of a folder. -/
def locate? (s : Storage) (path : String) : Option (String × String) :=
  match (pieces '/' path.toList).getLast? with
  | some [] | some ['.'] => none
  | _ => s.follow? "" (pathNames path)

/-- Makes the folder with a path, and the folders it is in. -/
def makePath? (s : Storage) (path : String) : Option Storage := (s.makeFolders? "" (pathNames path)).map (·.1)

/-- The bytes of the file with a path. -/
def readPath? (s : Storage) (path : String) : Option (List UInt8) :=
  (s.locate? path).bind fun p => s.read? p.1 p.2

def writePath? (s : Storage) (path : String) (bytes : List UInt8) : Option Storage :=
  (s.locate? path).bind fun p => s.write? p.1 p.2 bytes

end Storage

end FileGraph
