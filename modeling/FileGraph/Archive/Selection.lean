import FileGraph.Archive.Directory
import FileGraph.Path
import FileGraph.Settings
/-!
# Selection — the files of an archive that are analysed

The files of a repository often share a top folder, the root, which is left out of their paths: it is given by the
user, or discovered if all files lie in it.  Of the files whose names are admissible the first with each path is taken,
in the order of the archive.
-/
namespace FileGraph.Archive

open Text

structure RawFile where
  name  : String
  bytes : List UInt8
  deriving DecidableEq

/-- A file that is analysed. -/
structure Entry where
  path    : String
  content : String
  deriving DecidableEq, Repr

/-- Why an archive cannot be analysed. -/
inductive Fault where
  /-- The data is no archive, or has entries that cannot be opened. -/
  | unusable
  /-- The data of an entry is corrupt. -/
  | unreadable (name : String)
  /-- No file of the archive is admissible. -/
  | empty
  deriving DecidableEq, Repr

def Fault.message : Fault → String
  | .unusable => "invalid or corrupt archive"
  | .unreadable name => "invalid or corrupt archive: failed to read entry " ++ name
  | .empty => "no valid files: the archive contains no recognizable source files"

/-! ## Raw files -/

/-- The folder in which resource forks are kept. -/
def resourceFolder : List Char := "__MACOSX/".toList

/-- The files of entries, in order.  The first entry that cannot be opened or read ends the reading. -/
def rawFilesOf (data : ByteArray) : List Member → Except Fault (List RawFile)
  | [] => .ok []
  | m :: ms =>
    match m.open? data with
    | none => .error .unusable
    | some kept =>
      let name := m.name.toList.map fun c => if c = '\\' then '/' else c
      if m.isFolder || (dropStart? resourceFolder name).isSome then rawFilesOf data ms
      else
        match m.contents? kept with
        | none => .error (.unreadable (.ofList name))
        | some bytes => (rawFilesOf data ms).map (⟨.ofList name, bytes⟩ :: ·)

def rawFiles (data : ByteArray) : Except Fault (List RawFile) :=
  match members? data with
  | some ms => rawFilesOf data ms
  | none => .error .unusable

/-! ## Roots -/

/-- A name without any `./` before it. -/
def dropDotFolders : List Char → List Char
  | '.' :: '/' :: cs => dropDotFolders cs
  | cs => cs

/-- A name without what makes it look absolute or relative to a folder: first any `./`, then any `/`. -/
def relativeName (name : List Char) : List Char := (dropDotFolders name).dropWhile (· == '/')

/-- The top folder of a name, if something follows it. -/
def rootOf? (name : List Char) : Option (List Char) :=
  match cut? '/' (relativeName name) with
  | some (c :: cs, _ :: _) => some (c :: cs)
  | _ => none

/-- The top folder that all names share. -/
def discoverRoot (names : List String) : Option String :=
  match names with
  | [] => none
  | name :: others =>
    match rootOf? name.toList with
    | none => none
    | some root => if others.all (fun n => rootOf? n.toList == some root) then some (.ofList root) else none

/-- A root as it is given, without `/` at its ends. -/
def givenRoot (root : String) : Option String :=
  match dropEndWhile (· == '/') (root.toList.dropWhile (· == '/')) with
  | [] => none
  | c :: cs => some (.ofList (c :: cs))

def stripRoot (root : Option String) (name : String) : String :=
  let name := relativeName name.toList
  match root with
  | none => .ofList name
  | some root =>
    match (dropStart? root.toList name).bind (dropStart? ['/']) with
    | some rest => .ofList rest
    | none => .ofList name

/-! ## Files -/

/-- Whether the file with a path is analysed: it is neither hidden nor a lockfile and its extension is admitted. -/
def isAdmissible (s : Settings) (path : String) : Bool :=
  let basename := Path.basename path.toList
  basename.head?.any (· != '.') && !s.isLockfile (.ofList basename) &&
    match Path.extension? path with
    | some ext => s.allowsExtension ext
    | none => false

/-- The files with admissible paths, the first of each path; `seen` are the paths before them. -/
def select (s : Settings) (root : Option String) : (seen : List String) → List RawFile → List Entry
  | _, [] => []
  | seen, f :: fs =>
    let path := stripRoot root f.name
    if isAdmissible s path && !seen.contains path then
      ⟨path, .ofList (decodeLossy f.bytes)⟩ :: select s root (path :: seen) fs
    else select s root seen fs

/-- The root of a list of files: the given one, or else the discovered one. -/
def rootFor (root : Option String) (files : List RawFile) : Option String :=
  match root with
  | some root => givenRoot root
  | none => discoverRoot (files.map (·.name))

/-- The files of a list that are analysed. -/
def entriesOf (s : Settings) (root : Option String) (files : List RawFile) : Except Fault (List Entry) :=
  match select s (rootFor root files) [] files with
  | [] => .error .empty
  | entries => .ok entries

/-- The files of an archive that are analysed. -/
def load (s : Settings) (data : ByteArray) (root : Option String) : Except Fault (List Entry) :=
  match rawFiles data with
  | .error f => .error f
  | .ok files => entriesOf s root files

end FileGraph.Archive
