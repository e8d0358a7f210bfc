/-!
# Bytes — numbers in bytes

Numbers are kept in a fixed count of bytes, the lowest first.  A reader takes what it needs from the front of the bytes
and returns the rest; it fails only if there are too few.  Formats built on them may fail in another way too (`Stop`).
-/
namespace FileGraph.Bytes

/-- Why reading ends early. -/
inductive Stop where
  /-- The bytes end before what is read does. -/
  | cut
  /-- What is read contradicts itself. -/
  | unsound
  deriving DecidableEq, Repr

/-- The lowest `n` bytes of a number, the lowest first. -/
def littleEndian : (n : Nat) → Nat → List UInt8
  | 0, _ => []
  | n + 1, x => UInt8.ofNat x :: littleEndian n (x / 256)

/-- The number in the next `n` bytes. -/
def takeNumber? : (n : Nat) → List UInt8 → Option (Nat × List UInt8)
  | 0, bs => some (0, bs)
  | _ + 1, [] => none
  | n + 1, b :: bs => (takeNumber? n bs).map fun p => (b.toNat + 256 * p.1, p.2)

/-- The next `n` bytes. -/
def take? : (n : Nat) → List UInt8 → Option (List UInt8 × List UInt8)
  | 0, bs => some ([], bs)
  | _ + 1, [] => none
  | n + 1, b :: bs => (take? n bs).map fun p => (b :: p.1, p.2)

end FileGraph.Bytes
