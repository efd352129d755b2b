import AmigaBinary.Hunk.Write

/-!
# Hunk images

StoneCracker packs a program as an image of its own: the number of hunks less one, the size table,
a record for each hunk (a type word, a count of longwords and the contents) and the word 0xFFFF. A
type word has bit 14 set, and bit 15 tells data from code.
-/

namespace AmigaBinary.Decrunch.HunkImage

/-! ## 1. Records -/

/-- The segment of a record. -/
def segmentOf (type : UInt16) (body : Bytes) : Hunk :=
  if type &&& 0x8000 = 0 then .code body else .data body

/-- The record at a cursor. -/
def readRecord (cursor : Cursor) : Except Error (Hunk × Cursor) := do
  let (type, cursor) ← cursor.word16
  let (count, cursor) ← cursor.word16
  let (body, cursor) ← cursor.take (4 * count.toNat)
  if type &&& 0x4000 = 0 then .error (.packedHunkType type)
  else .ok (segmentOf type body, cursor)

/-- So many records; each becomes a segment and its end marker. -/
def readRecords : Nat → Cursor → Except Error (List Hunk × Cursor)
  | 0, cursor => .ok ([], cursor)
  | count + 1, cursor => do
      let (segment, cursor) ← readRecord cursor
      let (hunks, cursor) ← readRecords count cursor
      .ok (segment :: .finish :: hunks, cursor)

/-! ## 2. Images -/

/-- The hunk file that an image stands for. -/
def toHunkFile (image : Bytes) : Except Error HunkFile := do
  let (last, cursor) ← (Cursor.start image).word32
  if last = 0xFFFFFFFF then .error (.malformed .imageHunkCount)
  else
    let count := last.toNat + 1
    let (table, cursor) ← cursor.take (4 * count)
    let (hunks, cursor) ← readRecords count cursor
    if cursor.rest = [0xFF, 0xFF] then
      .ok ⟨.complete, (Hunk.wordsOf table).map SegmentSize.ofWord, hunks⟩
    else .error (.malformed .imageEnd)

/-- The bytes of the hunk file that an image stands for. -/
def toHunkBytes (image : Bytes) : Except Error Bytes :=
  (toHunkFile image).map HunkFile.write

end AmigaBinary.Decrunch.HunkImage
