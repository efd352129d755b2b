import AmigaBinary.Hunk.Parse

/-!
# Writing hunk files

The written form of a hunk file: no resident libraries, contents padded with zeros to whole
longwords, and no list of relocations without an entry, because a count of zero ends the lists.
-/

namespace AmigaBinary

/-- A count as a 32-bit word. -/
def countWord (n : Nat) : Bytes :=
  Bytes.ofWord32 (UInt32.ofNat n)

namespace Hunk

/-! ## 1. Blocks -/

/-- A count of longwords and the contents, padded to that many. -/
def writeBody (body : Bytes) : Bytes :=
  let padded := Bytes.padToLong body
  countWord (padded.length / 4) ++ padded

/-- A list of relocations; one without offsets has no written form. -/
def writeRelocBlock (block : RelocBlock) : Bytes :=
  if block.offsets = [] then []
  else countWord block.offsets.length ++ Bytes.ofWord32 block.target
    ++ block.offsets.flatMap Bytes.ofWord32

/-- A block behind its tag. -/
def write : Hunk → Bytes
  | .code body => Bytes.ofWord32 codeTag ++ writeBody body
  | .data body => Bytes.ofWord32 dataTag ++ writeBody body
  | .reloc32 blocks =>
      Bytes.ofWord32 reloc32Tag ++ blocks.flatMap writeRelocBlock ++ Bytes.ofWord32 0
  | .finish => Bytes.ofWord32 finishTag

end Hunk

namespace HunkFile

/-! ## 2. Files -/

/-- The first and the last segment that the header declares. -/
def declaredRange (file : HunkFile) : UInt32 × UInt32 :=
  match file.extent with
  | .complete => (0, UInt32.ofNat (file.sizes.length - 1))
  | .range first last => (first, last)

/-- The header of a file. -/
def writeHeader (file : HunkFile) : Bytes :=
  Bytes.ofWord32 Hunk.headerTag ++ Bytes.ofWord32 0
    ++ countWord file.sizes.length
    ++ Bytes.ofWord32 file.declaredRange.1 ++ Bytes.ofWord32 file.declaredRange.2
    ++ file.sizes.flatMap fun size => Bytes.ofWord32 size.toWord

/-- The bytes of a hunk file. -/
def write (file : HunkFile) : Bytes :=
  file.writeHeader ++ file.hunks.flatMap Hunk.write

end HunkFile

end AmigaBinary
