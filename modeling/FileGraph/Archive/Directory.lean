import FileGraph.Archive.CodePage
import FileGraph.Archive.EndRecord
import FileGraph.Archive.ExtraField
/-!
# Directory — the entries of a zip archive

The record at the end of an archive is searched for from the end backwards, for bytes may follow the archive.  A record
that leads to no sound directory is passed over.

Of two entries of one name the later one counts, in the place of the earlier one.

The directory says where each entry is.  What stands there is looked at only when the entry is opened, and only to learn
where its data starts.
-/
namespace FileGraph.Archive

/-! ## Listed entries -/

/-- The bytes between two positions, if they are all there. -/
def bytesAt? (data : ByteArray) (pos length : Nat) : Option (List UInt8) :=
  if data.size < pos + length then none else some (data.extract pos (pos + length)).data.toList

/-- The text of a name or a comment. -/
def entryText (unicode : Bool) (bytes : List UInt8) : String :=
  .ofList (if unicode then Text.decodeLossy bytes else codePageText bytes)

/-- The entry that the directory lists at a position, and the position after it. -/
def memberAt? (data : ByteArray) (leading pos : Nat) : Option (Member × Nat) := do
  if !isMarked data directoryMark pos then none
  let flags ← numberAt? data 2 (pos + 8)
  let method ← numberAt? data 2 (pos + 10)
  let crc ← numberAt? data 4 (pos + 16)
  let size ← numberAt? data 4 (pos + 20)
  let fullSize ← numberAt? data 4 (pos + 24)
  let nameLength ← numberAt? data 2 (pos + 28)
  let extraLength ← numberAt? data 2 (pos + 30)
  let commentLength ← numberAt? data 2 (pos + 32)
  let position ← numberAt? data 4 (pos + 42)
  let nameBytes ← bytesAt? data (pos + 46) nameLength
  let extra ← bytesAt? data (pos + 46 + nameLength) extraLength
  let comment ← bytesAt? data (pos + 46 + nameLength + extraLength) commentLength
  let unicode := flags / 2048 % 2 == 1
  let listed : Member := {
    name := entryText unicode nameBytes, nameBytes, comment := entryText unicode comment,
    encrypted := flags % 2 == 1, cipher := false, method, checksum := UInt32.ofNat crc, size, fullSize, position }
  let m ← listed.withFields? extra
  if m.lacksCipher ∨ Nat.pow 2 64 ≤ m.position + leading then none
  return ({ m with position := m.position + leading }, pos + 46 + nameLength + extraLength + commentLength)

/-- The next `count` entries of a directory. -/
def membersAt? (data : ByteArray) (leading : Nat) : (count : Nat) → (pos : Nat) → Option (List Member)
  | 0, _ => some []
  | count + 1, pos => do
    let (m, pos) ← memberAt? data leading pos
    let ms ← membersAt? data leading count pos
    return m :: ms

/-- The list with an entry at its end, or in the place of the entry of the same name. -/
def place (ms : List Member) (m : Member) : List Member :=
  if ms.any (·.name == m.name) then ms.map fun old => if old.name == m.name then m else old else ms ++ [m]

/-- The entries that the record at a position leads to. -/
def directoryOf? (data : ByteArray) (pos : Nat) : Option (List Member) := do
  let p ← directoryPlaceAt? data pos
  let ms ← membersAt? data p.leading p.count p.start
  return ms.foldl place []

/-- The directory of the last sound record before a position. -/
def lastDirectory? (data : ByteArray) : (pos : Nat) → Option (List Member)
  | 0 => none
  | pos + 1 => directoryOf? data pos <|> lastDirectory? data pos

/-- The entries of an archive. -/
def members? (data : ByteArray) : Option (List Member) := lastDirectory? data data.size

/-! ## Contents -/

/-- The position of the data of the entry at a position. -/
def dataStart? (data : ByteArray) (pos : Nat) : Option Nat := do
  if !isMarked data entryMark pos then none
  if data.size < pos + 30 then none
  let name ← numberAt? data 2 (pos + 26)
  let extra ← numberAt? data 2 (pos + 28)
  return pos + 30 + name + extra

/-- The data of an entry as it is kept, if the entry can be opened.  There may be less of it than the directory says. -/
def Member.open? (data : ByteArray) (m : Member) : Option ByteArray :=
  if m.isSupported then
    (dataStart? data m.position).map fun start => data.extract start (min data.size (start + m.size))
  else none

/-- What the data of an entry stands for, if it is sound. -/
def Member.contents? (m : Member) (kept : ByteArray) : Option (List UInt8) := do
  let bytes ← if m.method = Member.stored then some kept.data.toList else (inflate? kept).map (·.data.toList)
  if Archive.checksum bytes = m.checksum then return bytes else none

end FileGraph.Archive
