import FileGraph.Bytes
import FileGraph.Source.Grammar
import FileGraph.Text.Utf8
/-!
# Codec — analyses as bytes

All numbers are words of eight bytes, the lowest first.  An analysis is the number of its functions, each with its
name and its two numbers, in the order of the names, and then the number of its imports and each import.  A text is
the number of its bytes and the bytes.

Reading accepts what stands after an analysis and refuses anything that is cut short or is no text.
-/
namespace FileGraph.Cache

open Bytes Source

/-! ## Writing -/

def encodeWord (x : Nat) : List UInt8 := littleEndian 8 x

def encodeText (s : String) : List UInt8 := encodeWord s.utf8ByteSize ++ s.toUTF8.data.toList

def encodeFunction (f : String × Span) : List UInt8 :=
  encodeText f.1 ++ encodeWord f.2.firstLine ++ encodeWord f.2.lineCount

def encode (a : Analysis) : List UInt8 :=
  encodeWord a.functions.size ++ a.functions.entries.flatMap encodeFunction ++
    encodeWord a.imports.length ++ a.imports.flatMap encodeText

/-! ## Reading -/

def decodeWord (bs : List UInt8) : Option (Nat × List UInt8) := takeNumber? 8 bs

def decodeText (bs : List UInt8) : Option (String × List UInt8) := do
  let (n, bs) ← decodeWord bs
  let (text, bs) ← take? n bs
  let s ← Text.decode? text
  return (s, bs)

def decodeFunction (bs : List UInt8) : Option ((String × Span) × List UInt8) := do
  let (name, bs) ← decodeText bs
  let (firstLine, bs) ← decodeWord bs
  let (lineCount, bs) ← decodeWord bs
  return ((name, ⟨firstLine, lineCount⟩), bs)

/-- The next `n` items. -/
def decodeMany {α : Type} (item : List UInt8 → Option (α × List UInt8)) :
    (n : Nat) → List UInt8 → Option (List α × List UInt8)
  | 0, bs => some ([], bs)
  | n + 1, bs =>
    match item bs with
    | none => none
    | some (x, bs) => (decodeMany item n bs).map fun p => (x :: p.1, p.2)

/-- The analysis that bytes start with. -/
def decode (bs : List UInt8) : Option Analysis := do
  let (n, bs) ← decodeWord bs
  let (functions, bs) ← decodeMany decodeFunction n bs
  let (n, bs) ← decodeWord bs
  let (imports, _) ← decodeMany decodeText n bs
  return ⟨.ofList functions, imports⟩

end FileGraph.Cache
