import FileGraph.Cache.Codec
import FileGraph.Cache.Digest
import FileGraph.Language
import FileGraph.Storage
/-!
# Cache — analyses that are known already

A cache has two levels: a memory of its own, and a folder of the storage that it may share with others.  An analysis is
stored in both, and looked up in memory first; what is found in the folder is kept in memory from then on, as long as
there is room.  A file that is no analysis counts as none.

The key of an analysis is a digest of the language and the content of a file.
-/
namespace FileGraph

open Source

/-- A memory of analyses, and the folder in which they are kept too. -/
structure Cache where
  memory : NameMap Analysis
  folder : Option String
  deriving DecidableEq

namespace Cache

/-- The number of analyses that are kept in memory. -/
def capacity : Nat := 4096

def key (language : Language) (content : String) : String :=
  Digest.sha256 (language.tag.toUTF8.data.toList ++ 0 :: content.toUTF8.data.toList)

/-- The name of the file under which an analysis is kept. -/
def fileName (key : String) : String := "analysis_" ++ key ++ ".bincode"

/-- A cache without a folder. -/
def inMemory : Cache := ⟨.empty, none⟩

/-- A cache with a folder, which is made if need be.  If it cannot be made the cache has none. -/
def openFolder (s : Storage) (names : List String) : Cache × Storage :=
  match s.makeFolders? "" names with
  | some (s, folder) => (⟨.empty, some folder⟩, s)
  | none => (.inMemory, s)

/-- The analysis that is kept in a folder under a key, if there is a folder. -/
def kept? (folder : Option String) (s : Storage) (key : String) : Option Analysis :=
  folder.bind fun folder => (s.read? folder (fileName key)).bind decode

/-- The analysis under a key, and the cache afterwards. -/
def get (c : Cache) (s : Storage) (key : String) : Option Analysis × Cache :=
  match c.memory.get? key with
  | some a => (some a, c)
  | none =>
    match kept? c.folder s key with
    | some a => (some a, if c.memory.size < capacity then { c with memory := c.memory.insert key a } else c)
    | none => (none, c)

/-- The memory with room for one more analysis. -/
def makeRoom (memory : NameMap Analysis) : NameMap Analysis :=
  if memory.size < capacity then memory
  else ⟨memory.entries.tail, memory.sorted.sublist (List.tail_sublist _)⟩

/-- Stores an analysis under a key, in memory and then in the folder.  Says whether the folder took it. -/
def store (c : Cache) (s : Storage) (key : String) (a : Analysis) : Cache × Storage × Bool :=
  let c := { c with memory := (makeRoom c.memory).insert key a }
  match c.folder with
  | none => (c, s, true)
  | some folder =>
    match s.write? folder (fileName key) (encode a) with
    | some s => (c, s, true)
    | none => (c, s, false)

/-- The number of analyses in memory. -/
def size (c : Cache) : Nat := c.memory.size

/-- Forgets everything in memory and in the folder. -/
def clear (c : Cache) (s : Storage) : Cache × Storage :=
  match c.folder with
  | none => (⟨.empty, none⟩, s)
  | some folder =>
    (⟨.empty, some folder⟩,
      if s.hasFolder folder then ⟨(s.removeFolder folder).folders.insert folder .empty⟩ else s)

end Cache

end FileGraph
