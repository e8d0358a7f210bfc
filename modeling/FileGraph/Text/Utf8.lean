/-!
# Utf8 — text from bytes

`decode?` reads bytes that are text.  `decodeLossy` reads any bytes: what is no character is replaced by U+FFFD, once
for each longest start of a character that breaks off, and once for each byte that starts none.
-/
namespace FileGraph.Text

/-- The text of bytes that are one. -/
def decode? (bytes : List UInt8) : Option String := String.fromUTF8? ⟨bytes.toArray⟩

/-- What stands for bytes that are no character. -/
def replacement : Char := '\ufffd'

/-- A byte that continues a character. -/
def isContinuation (b : UInt8) : Bool := decide (0x80 ≤ b) && decide (b ≤ 0xBF)

/-- The bytes that may follow the first byte of a character of three bytes. -/
def secondOfThree (first second : UInt8) : Bool :=
  if first = 0xE0 then decide (0xA0 ≤ second) && decide (second ≤ 0xBF)
  else if first = 0xED then decide (0x80 ≤ second) && decide (second ≤ 0x9F)
  else isContinuation second

/-- The bytes that may follow the first byte of a character of four bytes. -/
def secondOfFour (first second : UInt8) : Bool :=
  if first = 0xF0 then decide (0x90 ≤ second) && decide (second ≤ 0xBF)
  else if first = 0xF4 then decide (0x80 ≤ second) && decide (second ≤ 0x8F)
  else isContinuation second

/-- The payload of a continuation byte. -/
def payload (b : UInt8) : Nat := b.toNat % 64

/-- The text of any bytes. -/
def decodeLossy : List UInt8 → List Char
  | [] => []
  | a :: as =>
    if a < 0x80 then Char.ofNat a.toNat :: decodeLossy as
    else if a < 0xC2 ∨ 0xF4 < a then replacement :: decodeLossy as
    else
      match as with
      | [] => [replacement]
      | b :: bs =>
        if a < 0xE0 then
          if isContinuation b then Char.ofNat (a.toNat % 32 * 64 + payload b) :: decodeLossy bs
          else replacement :: decodeLossy (b :: bs)
        else if a < 0xF0 then
          if secondOfThree a b then
            match bs with
            | [] => [replacement]
            | c :: cs =>
              if isContinuation c then
                Char.ofNat ((a.toNat % 16 * 64 + payload b) * 64 + payload c) :: decodeLossy cs
              else replacement :: decodeLossy (c :: cs)
          else replacement :: decodeLossy (b :: bs)
        else if secondOfFour a b then
          match bs with
          | [] => [replacement]
          | c :: cs =>
            if isContinuation c then
              match cs with
              | [] => [replacement]
              | d :: ds =>
                if isContinuation d then
                  Char.ofNat (((a.toNat % 8 * 64 + payload b) * 64 + payload c) * 64 + payload d) :: decodeLossy ds
                else replacement :: decodeLossy (d :: ds)
            else replacement :: decodeLossy (c :: cs)
        else replacement :: decodeLossy (b :: bs)

end FileGraph.Text
