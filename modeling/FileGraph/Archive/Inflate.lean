import FileGraph.Bytes
/-!
# Inflate — compressed data

A compressed stream is a sequence of blocks: stored bytes, or symbols of a prefix code that stand for bytes and for
copies of earlier output.  Bits are addressed by their number in the data, the lowest bit of a byte first; every symbol
takes at least one bit, so the number of bits bounds all loops.

A stream with a fault has no result.  One that is merely cut short stands for as much as its bits say; whether that is
all is for the checksum to tell.
-/
namespace FileGraph.Archive

open Bytes (Stop)

/-! ## Bits -/

def byteAt? (data : ByteArray) (pos : Nat) : Option UInt8 :=
  if h : pos < data.size then some data[pos] else none

def bitAt (data : ByteArray) (i : Nat) : Except Stop Nat :=
  match byteAt? data (i / 8) with
  | some b => .ok ((b.toNat >>> (i % 8)) % 2)
  | none => .error .cut

/-- The number in the next `n` bits, the lowest bit first, and the position after it. -/
def bitsAt (data : ByteArray) : (n : Nat) → (pos : Nat) → Except Stop (Nat × Nat)
  | 0, pos => .ok (0, pos)
  | n + 1, pos => do
    let b ← bitAt data pos
    let (rest, pos) ← bitsAt data n (pos + 1)
    return (b + 2 * rest, pos)

/-- What is there, or a fault. -/
def orUnsound {α : Type} : Option α → Except Stop α
  | some x => .ok x
  | none => .error .unsound

/-! ## Prefix codes -/

/-- A prefix code in canonical form: the number of codes of each length from one on, and the symbols in the order of
their codes. -/
structure PrefixCode where
  counts  : List Nat
  symbols : Array Nat

namespace PrefixCode

/-- The longest code. -/
def maxLength : Nat := 15

/-- The symbols of each length from one on, in order. -/
def symbolsByLength (lengths : List Nat) : List (List Nat) :=
  (List.range maxLength).map fun i => (lengths.zipIdx.filter fun l => l.1 == i + 1).map (·.2)

/-- The share of the space of all codes that codes take up; `weight` is the share of a code of the first length. -/
def spaceTaken : (weight : Nat) → (counts : List Nat) → Nat
  | _, [] => 0
  | weight, n :: ns => n * weight + spaceTaken (weight / 2) ns

/-- The code in which each symbol has the given length; symbols of length zero have none.  The codes have to fill the
space of all codes, unless there is at most one. -/
def ofLengths? (lengths : List Nat) : Option PrefixCode :=
  let symbols := symbolsByLength lengths
  let counts := symbols.map List.length
  if spaceTaken (Nat.pow 2 (maxLength - 1)) counts == Nat.pow 2 maxLength || counts.foldr (· + ·) 0 ≤ 1 then
    some ⟨counts, symbols.flatten.toArray⟩
  else none

/-- Follows a code bit by bit; `first` is the first code of the current length and `index` the place of its symbol. -/
def decodeFrom (data : ByteArray) (symbols : Array Nat) :
    (counts : List Nat) → (code first index pos : Nat) → Except Stop (Nat × Nat)
  | [], _, _, _, _ => .error .unsound
  | n :: ns, code, first, index, pos => do
    let b ← bitAt data pos
    let code := 2 * code + b
    if code < first + n then
      let symbol ← orUnsound symbols[index + (code - first)]?
      return (symbol, pos + 1)
    else decodeFrom data symbols ns code (2 * (first + n)) (index + n) (pos + 1)

/-- The next symbol and the position after it. -/
def decode (code : PrefixCode) (data : ByteArray) (pos : Nat) : Except Stop (Nat × Nat) :=
  decodeFrom data code.symbols code.counts 0 0 0 pos

end PrefixCode

/-! ## Blocks -/

/-- The least length of each length symbol and the number of bits that are added to it. -/
def lengthTable : List (Nat × Nat) :=
  [(3, 0), (4, 0), (5, 0), (6, 0), (7, 0), (8, 0), (9, 0), (10, 0), (11, 1), (13, 1), (15, 1), (17, 1), (19, 2),
   (23, 2), (27, 2), (31, 2), (35, 3), (43, 3), (51, 3), (59, 3), (67, 4), (83, 4), (99, 4), (115, 4), (131, 5),
   (163, 5), (195, 5), (227, 5), (258, 0)]

/-- The least distance of each distance symbol and the number of bits that are added to it. -/
def distanceTable : List (Nat × Nat) :=
  [(1, 0), (2, 0), (3, 0), (4, 0), (5, 1), (7, 1), (9, 2), (13, 2), (17, 3), (25, 3), (33, 4), (49, 4), (65, 5),
   (97, 5), (129, 6), (193, 6), (257, 7), (385, 7), (513, 8), (769, 8), (1025, 9), (1537, 9), (2049, 10), (3073, 10),
   (4097, 11), (6145, 11), (8193, 12), (12289, 12), (16385, 13), (24577, 13)]

/-- The amount of a symbol of one of the tables. -/
def amountAt (table : List (Nat × Nat)) (data : ByteArray) (symbol pos : Nat) : Except Stop (Nat × Nat) := do
  let (base, extra) ← orUnsound table[symbol]?
  let (more, pos) ← bitsAt data extra pos
  return (base + more, pos)

/-- What the next step of a compressed block is. -/
inductive Step where
  | literal (byte : UInt8)
  /-- So many bytes are copied from so far back. -/
  | copy (length distance : Nat)
  | blockEnd
  deriving DecidableEq, Repr

/-- The next step of a compressed block. -/
def stepAt (data : ByteArray) (literals distances : PrefixCode) (pos : Nat) : Except Stop (Step × Nat) := do
  let (symbol, pos) ← literals.decode data pos
  if symbol < 256 then return (.literal (UInt8.ofNat symbol), pos)
  else if symbol = 256 then return (.blockEnd, pos)
  else
    let (length, pos) ← amountAt lengthTable data (symbol - 257) pos
    let (symbol, pos) ← distances.decode data pos
    let (distance, pos) ← amountAt distanceTable data symbol pos
    return (.copy length distance, pos)

/-- Output with `length` bytes appended, each a copy of the one `distance` before it.  Before all output there are
zeros. -/
def copyBack (distance : Nat) : (length : Nat) → ByteArray → ByteArray
  | 0, out => out
  | n + 1, out =>
    let b := if out.size < distance then 0 else (byteAt? out (out.size - distance)).getD 0
    copyBack distance n (out.push b)

/-- The rest of a compressed block: the output after it, and where it ends. -/
def inflateSteps (data : ByteArray) (literals distances : PrefixCode) :
    (bound : Nat) → (pos : Nat) → ByteArray → ByteArray × Except Stop Nat
  | 0, _, out => (out, .error .cut)
  | bound + 1, pos, out =>
    match stepAt data literals distances pos with
    | .error stop => (out, .error stop)
    | .ok (.literal b, pos) => inflateSteps data literals distances bound pos (out.push b)
    | .ok (.copy length distance, pos) =>
      inflateSteps data literals distances bound pos (copyBack distance length out)
    | .ok (.blockEnd, pos) => (out, .ok pos)

/-- The number of bytes of a stored block and where they start: it begins at the next whole byte with their number, once
plain and once complemented. -/
def storedLength (data : ByteArray) (pos : Nat) : Except Stop (Nat × Nat) := do
  let (length, pos) ← bitsAt data 16 ((pos + 7) / 8 * 8)
  let (complement, pos) ← bitsAt data 16 pos
  if length + complement ≠ 0xFFFF then throw .unsound
  return (length, pos / 8)

/-- A block of stored bytes: the output after it, and where it ends. -/
def storedBlock (data : ByteArray) (pos : Nat) (out : ByteArray) : ByteArray × Except Stop Nat :=
  match storedLength data pos with
  | .error stop => (out, .error stop)
  | .ok (length, start) =>
    (out ++ data.extract start (min data.size (start + length)),
      if data.size < start + length then .error .cut else .ok ((start + length) * 8))

/-- The code of literals and lengths that needs no description. -/
def fixedLiterals : List Nat :=
  List.replicate 144 8 ++ List.replicate 112 9 ++ List.replicate 24 7 ++ List.replicate 8 8

/-- The order in which the lengths of the code for code lengths are given. -/
def lengthOrder : List Nat := [16, 17, 18, 0, 8, 7, 9, 6, 10, 5, 11, 4, 12, 3, 13, 2, 14, 1, 15]

/-- The next `n` numbers of three bits. -/
def triplesAt (data : ByteArray) : (n : Nat) → (pos : Nat) → Except Stop (List Nat × Nat)
  | 0, pos => .ok ([], pos)
  | n + 1, pos => do
    let (x, pos) ← bitsAt data 3 pos
    let (xs, pos) ← triplesAt data n pos
    return (x :: xs, pos)

/-- Reads code lengths until there are `count` of them, latest first.  Three symbols repeat: the previous length, or
zero. -/
def codeLengths (data : ByteArray) (code : PrefixCode) (count : Nat) :
    (bound : Nat) → (pos : Nat) → List Nat → Except Stop (List Nat × Nat)
  | 0, _, _ => .error .unsound
  | bound + 1, pos, done =>
    if count < done.length then .error .unsound
    else if done.length = count then .ok (done.reverse, pos)
    else do
      let (symbol, pos) ← code.decode data pos
      match symbol with
      | 16 =>
        let previous ← orUnsound done.head?
        let (n, pos) ← bitsAt data 2 pos
        codeLengths data code count bound pos (List.replicate (n + 3) previous ++ done)
      | 17 =>
        let (n, pos) ← bitsAt data 3 pos
        codeLengths data code count bound pos (List.replicate (n + 3) 0 ++ done)
      | 18 =>
        let (n, pos) ← bitsAt data 7 pos
        codeLengths data code count bound pos (List.replicate (n + 11) 0 ++ done)
      | n => codeLengths data code count bound pos (n :: done)

/-- The two codes that a block describes at its start. -/
def describedCodes (data : ByteArray) (pos : Nat) : Except Stop (PrefixCode × PrefixCode × Nat) := do
  let (literalCount, pos) ← bitsAt data 5 pos
  let (distanceCount, pos) ← bitsAt data 5 pos
  let (orderCount, pos) ← bitsAt data 4 pos
  let (triples, pos) ← triplesAt data (orderCount + 4) pos
  let given := lengthOrder.zip triples
  let lengthCode ← orUnsound (PrefixCode.ofLengths? ((List.range 19).map fun s => (given.lookup s).getD 0))
  let literals := literalCount + 257
  let count := literals + distanceCount + 1
  let (lengths, pos) ← codeLengths data lengthCode count (count + 1) pos []
  let literalCode ← orUnsound (PrefixCode.ofLengths? (lengths.take literals))
  let distanceCode ← orUnsound (PrefixCode.ofLengths? (lengths.drop literals))
  return (literalCode, distanceCode, pos)

/-- The two codes of a compressed block, given its kind. -/
def blockCodes (data : ByteArray) (kind pos : Nat) : Except Stop (PrefixCode × PrefixCode × Nat) :=
  match kind with
  | 1 => do
    let literals ← orUnsound (PrefixCode.ofLengths? fixedLiterals)
    let distances ← orUnsound (PrefixCode.ofLengths? (List.replicate 32 5))
    return (literals, distances, pos)
  | 2 => describedCodes data pos
  | _ => .error .unsound

/-- A block of a kind: the output after it, and where it ends. -/
def inflateBlock (data : ByteArray) (kind pos : Nat) (out : ByteArray) : ByteArray × Except Stop Nat :=
  if kind = 0 then storedBlock data pos out
  else
    match blockCodes data kind pos with
    | .error stop => (out, .error stop)
    | .ok (literals, distances, pos) => inflateSteps data literals distances (8 * data.size + 1) pos out

/-- Whether a block is the last one, its kind, and where it starts. -/
def blockHead (data : ByteArray) (pos : Nat) : Except Stop (Bool × Nat × Nat) := do
  let (last, pos) ← bitsAt data 1 pos
  let (kind, pos) ← bitsAt data 2 pos
  return (last == 1, kind, pos)

/-- The output after the blocks from a position on, and why they end early if they do. -/
def inflateFrom (data : ByteArray) : (bound : Nat) → (pos : Nat) → ByteArray → ByteArray × Except Stop Unit
  | 0, _, out => (out, .error .cut)
  | bound + 1, pos, out =>
    match blockHead data pos with
    | .error stop => (out, .error stop)
    | .ok (last, kind, pos) =>
      match inflateBlock data kind pos out with
      | (out, .error stop) => (out, .error stop)
      | (out, .ok pos) => if last then (out, .ok ()) else inflateFrom data bound pos out

/-- The data that a compressed stream stands for, unless it has a fault.  What follows the stream is ignored. -/
def inflate? (data : ByteArray) : Option ByteArray :=
  match inflateFrom data (8 * data.size + 1) 0 .empty with
  | (_, .error .unsound) => none
  | (out, _) => some out

end FileGraph.Archive
