import FileGraph.Archive.Inflate
/-!
# EndRecord — where the directory of an archive is

An archive ends with a record that says where its directory is and how many entries it lists.  If a number does not fit
there, a wide record stands before it, and between the two a locator that says where.

Bytes may stand before the archive, so positions that are counted from its start may be too small.  The directory, or
the wide record if there is one, is the first one from its stated position on, and how much later it stands tells how
many bytes come before the archive.
-/
namespace FileGraph.Archive

/-! ## Marks -/

/-- The number in `n` bytes from a position on, the lowest byte first. -/
def numberAt? (data : ByteArray) : (n : Nat) → (pos : Nat) → Option Nat
  | 0, _ => some 0
  | n + 1, pos => do
    let b ← byteAt? data pos
    let rest ← numberAt? data n (pos + 1)
    return b.toNat + 256 * rest

/-- The marks with which the records of an archive start. -/
def endMark : Nat := 0x06054B50
def wideEndMark : Nat := 0x06064B50
def locatorMark : Nat := 0x07064B50
def directoryMark : Nat := 0x02014B50
def entryMark : Nat := 0x04034B50

/-- Whether a mark stands at a position. -/
def isMarked (data : ByteArray) (mark pos : Nat) : Bool := numberAt? data 4 pos == some mark

/-- What a reader finds at the first of `count` positions at which it finds anything. -/
def firstFrom? {α : Type} (read : Nat → Option α) : (count : Nat) → (pos : Nat) → Option α
  | 0, _ => none
  | count + 1, pos =>
    match read pos with
    | some x => some x
    | none => firstFrom? read count (pos + 1)

/-- The number of positions from one on at which a mark fits in before another. -/
def marksBetween (start stop : Nat) : Nat := stop - start - 3

/-! ## Records -/

/-- The record at the end of an archive. -/
structure EndRecord where
  position      : Nat
  disk          : Nat
  directoryDisk : Nat
  /-- The number of entries that are listed. -/
  listed        : Nat
  /-- The number of entries of the whole archive. -/
  total         : Nat
  /-- Where the directory starts, counted from the start of the archive. -/
  offset        : Nat

/-- The record at a position; its comment has to fit into the data. -/
def endRecordAt? (data : ByteArray) (pos : Nat) : Option EndRecord := do
  if !isMarked data endMark pos then none
  let disk ← numberAt? data 2 (pos + 4)
  let directoryDisk ← numberAt? data 2 (pos + 6)
  let listed ← numberAt? data 2 (pos + 8)
  let total ← numberAt? data 2 (pos + 10)
  let offset ← numberAt? data 4 (pos + 16)
  let comment ← numberAt? data 2 (pos + 20)
  if data.size < pos + 22 + comment then none
  return ⟨pos, disk, directoryDisk, listed, total, offset⟩

/-- The record that says where the wide record is. -/
structure Locator where
  position      : Nat
  directoryDisk : Nat
  /-- Where the wide record starts, counted from the start of the archive. -/
  offset        : Nat
  disks         : Nat

/-- The number of bytes of a locator. -/
def Locator.size : Nat := 20

/-- The locator before a record at the end, if the record is one that may need it. -/
def EndRecord.locator? (data : ByteArray) (r : EndRecord) : Option Locator := do
  if r.total ≠ 0xFFFF ∧ r.offset ≠ 0xFFFFFFFF then none
  if r.position < Locator.size then none
  let pos := r.position - Locator.size
  if !isMarked data locatorMark pos then none
  let directoryDisk ← numberAt? data 4 (pos + 4)
  let offset ← numberAt? data 8 (pos + 8)
  let disks ← numberAt? data 4 (pos + 16)
  return ⟨pos, directoryDisk, offset, disks⟩

/-- A wide record, with the versions that made the archive and that are needed to read it. -/
structure WideRecord where
  madeBy : Nat
  needed : Nat
  record : EndRecord

/-- The wide record at a position.  It reaches up to its locator and agrees with it, and there is room for the entries
before it. -/
def wideRecordAt? (data : ByteArray) (l : Locator) (pos : Nat) : Option WideRecord := do
  if !isMarked data wideEndMark pos then none
  let size ← numberAt? data 8 (pos + 4)
  let madeBy ← numberAt? data 2 (pos + 12)
  let needed ← numberAt? data 2 (pos + 14)
  let disk ← numberAt? data 4 (pos + 16)
  let directoryDisk ← numberAt? data 4 (pos + 20)
  let listed ← numberAt? data 8 (pos + 24)
  let total ← numberAt? data 8 (pos + 32)
  let offset ← numberAt? data 8 (pos + 48)
  if size < 44 ∨ pos + 12 + size ≠ l.position then none
  if directoryDisk ≠ l.directoryDisk then none
  if pos < total * 46 + offset then none
  return ⟨madeBy, needed, ⟨pos, disk, directoryDisk, listed, total, offset⟩⟩

/-! ## Places of directories -/

structure DirectoryPlace where
  /-- The number of bytes before the archive. -/
  leading : Nat
  start   : Nat
  /-- The number of entries that are listed. -/
  count   : Nat

/-- The place of a directory that a record leads to without a locator. -/
def EndRecord.place? (data : ByteArray) (r : EndRecord) : Option DirectoryPlace :=
  if r.total = 0 then
    let leading := r.position - r.offset
    some ⟨leading, r.offset + leading, r.listed⟩
  else if r.position ≤ r.offset then none
  else
    (firstFrom? (fun pos => if isMarked data directoryMark pos then some pos else none)
      (marksBetween r.offset r.position) r.offset).map fun start => ⟨start - r.offset, start, r.listed⟩

/-- The place of a directory that a locator leads to. -/
def Locator.place? (data : ByteArray) (l : Locator) : Option DirectoryPlace := do
  if l.position ≤ l.offset ∨ 1 < l.disks then none
  let w ← firstFrom? (wideRecordAt? data l) (marksBetween l.offset l.position) l.offset
  if w.record.total < w.record.listed ∨ w.madeBy < w.needed then none
  if w.record.disk ≠ w.record.directoryDisk then none
  let leading := w.record.position - l.offset
  return ⟨leading, w.record.offset + leading, w.record.total⟩

/-- The place of the directory that the record at a position leads to. -/
def directoryPlaceAt? (data : ByteArray) (pos : Nat) : Option DirectoryPlace := do
  let r ← endRecordAt? data pos
  match r.locator? data with
  | some l => l.place? data
  | none => if r.disk ≠ r.directoryDisk then none else r.place? data

end FileGraph.Archive
