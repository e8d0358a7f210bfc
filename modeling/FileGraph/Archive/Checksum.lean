/-!
# Checksum — the cyclic redundancy check of archive entries
-/
namespace FileGraph.Archive

/-- One step of the division by the polynomial, for one bit. -/
def checksumBit (c : UInt32) : UInt32 :=
  if c &&& 1 = 1 then (c >>> 1) ^^^ 0xEDB88320 else c >>> 1

/-- The remainder after one more byte. -/
def checksumByte (c : UInt32) (b : UInt8) : UInt32 :=
  checksumBit <| checksumBit <| checksumBit <| checksumBit <| checksumBit <| checksumBit <| checksumBit <|
    checksumBit (c ^^^ b.toUInt32)

def checksum (bytes : List UInt8) : UInt32 :=
  bytes.foldl checksumByte 0xFFFFFFFF ^^^ 0xFFFFFFFF

end FileGraph.Archive
