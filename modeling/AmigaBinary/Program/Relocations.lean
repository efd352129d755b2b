import AmigaBinary.Bytes

/-!
# Relocation streams

The places to relocate are written as the distances between them, a byte for each: two to 255
stand for twice as many bytes, one skips 508 bytes without a place, and zero ends the list.
-/

namespace AmigaBinary.Relocations

/-- The distance that a byte of value 1 skips. -/
def skipDistance : UInt32 := 508

/-- The places of a list, and the stream behind it; `offset` is the last place or the end of the
    last skip. A list that the stream cuts off ends there. -/
def readFrom : UInt32 → Bytes → List UInt32 × Bytes
  | _, [] => ([], [])
  | offset, step :: rest =>
    if step = 0 then ([], rest)
    else if step = 1 then readFrom (offset + skipDistance) rest
    else
      let place := offset + 2 * step.toUInt32
      let (places, rest) := readFrom place rest
      (place :: places, rest)

/-- The first list of a stream, and the stream behind it. -/
def read (stream : Bytes) : List UInt32 × Bytes :=
  readFrom 0 stream

end AmigaBinary.Relocations
