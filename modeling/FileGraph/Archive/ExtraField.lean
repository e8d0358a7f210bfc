import FileGraph.Archive.Checksum
import FileGraph.Archive.Member
import FileGraph.Bytes
import FileGraph.Text.Utf8
/-!
# ExtraField — what an entry says in its extra fields

The directory may say more of an entry in a sequence of fields.  Each has a kind, the length of its content, and the
content.  Four kinds change the entry: sizes and positions that are too wide for their usual place, how the data is
encrypted, and a name or a comment in Unicode.  Two kinds hold times, which are checked for their form only.  All others
are skipped.

A field that contradicts itself makes the entry unsound.  If the bytes end within a field, that field ends the reading,
and what has been read of it counts.  Some kinds look at their content before they look at its length, so a field whose
length is too small is read on into the next one.
-/
namespace FileGraph.Archive

open Bytes (Stop)

/-- The bytes that are still to be read, and the entry as the fields before them leave it. -/
structure FieldState where
  rest   : List UInt8
  member : Member
  deriving DecidableEq, Repr

/-- A reader of extra fields.  What it has done to the entry stays when it stops. -/
abbrev FieldReader := ExceptT Stop (StateM FieldState)

namespace FieldReader

/-- Takes something from the front of the rest, with one of the readers of `Bytes`. -/
def take {α : Type} (f : List UInt8 → Option (α × List UInt8)) : FieldReader α := do
  let s ← get
  match f s.rest with
  | none => throw .cut
  | some (x, rest) =>
    set { s with rest }
    return x

/-- The number in the next `n` bytes. -/
def number (n : Nat) : FieldReader Nat := take (Bytes.takeNumber? n)

/-- The next `n` bytes. -/
def bytes (n : Nat) : FieldReader (List UInt8) := take (Bytes.take? n)

/-- Passes over `n` bytes. -/
def skip (n : Nat) : FieldReader Unit := do
  let _ ← bytes n

/-- Stops unless a condition holds. -/
def require (condition : Bool) : FieldReader Unit := if condition then pure () else throw .unsound

/-- The entry as it is so far. -/
def member : FieldReader Member := return (← get).member

def change (f : Member → Member) : FieldReader Unit := modify fun s => { s with member := f s.member }

/-! ## Wide numbers -/

/-- What stands in the usual place of a number that is too wide for it. -/
def tooWide : Nat := 0xFFFFFFFF

/-- Reads a number of the entry, if it is too wide for its usual place or all numbers are given; the number of bytes
that it takes. -/
def wideNumber (all : Bool) (value : Member → Nat) (fill : Member → Nat → Member) : FieldReader Nat := do
  if all || value (← member) == tooWide then
    let n ← number 8
    change (fill · n)
    return 8
  else return 0

/-- Wide numbers: those that are too wide, in a fixed order, or all three if there is room for them. -/
def wideNumbers (length : Nat) : FieldReader Unit := do
  let all := decide (24 ≤ length)
  let a ← wideNumber all (·.fullSize) fun m n => { m with fullSize := n }
  let b ← wideNumber all (·.size) fun m n => { m with size := n }
  let c ← wideNumber all (·.position) fun m n => { m with position := n }
  require (a + b + c ≤ length)
  skip (length - (a + b + c))

/-! ## Times -/

/-- Three times of a file in a block of one attribute. -/
def fileTimes (length : Nat) : FieldReader Unit := do
  require (length == 32)
  skip 4
  require ((← number 2) == 1)
  require ((← number 2) == 24)
  skip 24

/-- Up to three times of four bytes, after a byte with a bit for each of them.  A field with one time is always
accepted, for the bits may speak of the times in another place. -/
def timeStamps (length : Nat) : FieldReader Unit := do
  let bits ← number 1
  require (bits < 8)
  require (length == 5 || length == 1 + 4 * (bits % 2 + bits / 2 % 2 + bits / 4))
  skip (length - 1)

/-! ## Encryption -/

/-- The two letters that stand for the only known maker of the field on encryption. -/
def maker : Nat := 0x4541

/-- How the data is encrypted: version, maker, strength, and the method inside, which takes the place of the method of
the entry. -/
def cipher (length : Nat) : FieldReader Unit := do
  require (length == 7)
  let version ← number 2
  let madeBy ← number 2
  let strength ← number 1
  let method ← number 2
  require (madeBy == maker && (version == 1 || version == 2) && (1 ≤ strength && strength ≤ 3))
  change fun m => { m with cipher := true, method }

/-! ## Unicode -/

/-- A text with the checksum of what it stands for. -/
def checkedText (length : Nat) (replaced : List UInt8) : FieldReader (List UInt8 × String) := do
  skip 1
  let crc ← number 4
  require (5 ≤ length)
  let text ← bytes (length - 5)
  require (checksum replaced == UInt32.ofNat crc)
  match Text.decode? text with
  | some s => return (text, s)
  | none => throw .unsound

/-- A name in Unicode, checked against the bytes of the name that it replaces. -/
def unicodeName (length : Nat) : FieldReader Unit := do
  let (nameBytes, name) ← checkedText length (← member).nameBytes
  change fun m => { m with nameBytes, name }

/-- A comment in Unicode, checked against the text of the comment that it replaces. -/
def unicodeComment (length : Nat) : FieldReader Unit := do
  let (_, comment) ← checkedText length (← member).comment.toUTF8.data.toList
  change fun m => { m with comment }

/-! ## Fields -/

/-- The kinds of fields that are not skipped, each with the reader of its content. -/
def kinds : List (Nat × (Nat → FieldReader Unit)) :=
  [(0x0001, wideNumbers), (0x000A, fileTimes), (0x5455, timeStamps), (0x6375, unicodeComment),
   (0x7075, unicodeName), (0x9901, cipher)]

def field : FieldReader Unit := do
  let kind ← number 2
  let length ← number 2
  (kinds.lookup kind).getD skip length

/-- The fields up to the end of the bytes.  Each takes at least four of them, so their number bounds the loop. -/
def fields : (bound : Nat) → FieldReader Unit
  | 0 => pure ()
  | bound + 1 => do
    if (← get).rest.isEmpty then return
    field
    fields bound

end FieldReader

/-- An entry with what its extra fields say, unless one of them is unsound. -/
def Member.withFields? (m : Member) (extra : List UInt8) : Option Member :=
  match (FieldReader.fields extra.length).run.run ⟨extra, m⟩ with
  | (.error .unsound, _) => none
  | (_, s) => some s.member

end FileGraph.Archive
