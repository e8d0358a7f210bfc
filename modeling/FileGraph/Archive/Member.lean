/-!
# Member — an entry as the directory of an archive lists it
-/
namespace FileGraph.Archive

/-- An entry of an archive: its name, how its data is kept and where. -/
structure Member where
  name      : String
  /-- The bytes from which the name was read. -/
  nameBytes : List UInt8
  comment   : String
  /-- Whether the entry is marked as encrypted. -/
  encrypted : Bool
  /-- Whether an extra field says how the data is encrypted. -/
  cipher    : Bool
  method    : Nat
  checksum  : UInt32
  /-- The number of bytes of the data as it is kept. -/
  size      : Nat
  /-- The number of bytes that the data stands for. -/
  fullSize  : Nat
  position  : Nat
  deriving DecidableEq, Repr

namespace Member

/-- The methods by which data can be kept: as it is, compressed, or encrypted with a method of its own inside. -/
def stored : Nat := 0
def deflated : Nat := 8
def enciphered : Nat := 99

def isFolder (m : Member) : Bool :=
  match m.name.toList.getLast? with
  | some c => c == '/' || c == '\\'
  | none => false

/-- Whether the data of an entry can be read at all: it is not encrypted, and stored or compressed. -/
def isSupported (m : Member) : Bool :=
  !m.encrypted && !m.cipher && (m.method == stored || m.method == deflated)

/-- Whether an entry that is kept by the method for encrypted data lacks the field that says how. -/
def lacksCipher (m : Member) : Bool := m.method == enciphered && !m.cipher

end Member

end FileGraph.Archive
