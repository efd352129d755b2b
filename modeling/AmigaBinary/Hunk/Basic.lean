import AmigaBinary.Bytes
import AmigaBinary.Total

/-!
# Hunk files

An executable file is a header with a table of segment sizes and a sequence of typed blocks, the
hunks: code and data open a segment, relocations belong to the segment in front of them, and an
end marker closes it. A file may hold only a range of the segments of a larger program.
-/

namespace AmigaBinary

/-! ## 1. Segment sizes -/

/-- The memory that a segment asks for. -/
inductive MemoryType where
  | any
  | chip
  | fast
  | extended
  deriving DecidableEq, Repr

namespace MemoryType

/-- The memory type of a two-bit field. -/
def ofBits : Nat → MemoryType
  | 0 => .any
  | 1 => .chip
  | 2 => .fast
  | _ => .extended

/-- The two-bit field of a memory type. -/
def bits : MemoryType → Nat
  | .any => 0
  | .chip => 1
  | .fast => 2
  | .extended => 3

/-- The name of a memory type in texts. -/
def title : MemoryType → String
  | .any => "any"
  | .chip => "chip"
  | .fast => "fast"
  | .extended => "ext"

/-- The name of a memory type in records. -/
def identifier : MemoryType → String
  | .extended => "extended"
  | memory => memory.title

end MemoryType

/-- An entry of the size table: a length in bytes and the memory for it. -/
structure SegmentSize where
  length : UInt32
  memory : MemoryType
  deriving DecidableEq, Repr

namespace SegmentSize

/-- The entry of a table word: a count of longwords below two bits for the memory type. -/
def ofWord (word : UInt32) : SegmentSize where
  length := (word &&& 0x3FFFFFFF) * 4
  memory := .ofBits (word >>> 30).toNat

/-- The table word of an entry. A length that is no multiple of four is rounded down. -/
def toWord (size : SegmentSize) : UInt32 :=
  (size.length / 4).land 0x3FFFFFFF ||| UInt32.ofNat size.memory.bits <<< 30

end SegmentSize

/-! ## 2. Hunks -/

/-- The places of one segment that hold addresses in a target segment. -/
structure RelocBlock where
  target : UInt32
  offsets : List UInt32
  deriving DecidableEq, Repr

/-- A kind of block. -/
inductive HunkKind where
  | code
  | data
  | reloc32
  | finish
  deriving DecidableEq, Repr

namespace HunkKind

/-- The name of a kind of block in records. -/
def identifier : HunkKind → String
  | .code => "code"
  | .data => "data"
  | .reloc32 => "reloc32"
  | .finish => "end"

/-- The name of a kind of block in texts. -/
def title : HunkKind → String
  | .code => "HUNK_CODE"
  | .data => "HUNK_DATA"
  | .reloc32 => "HUNK_RELOC32"
  | .finish => "HUNK_END"

end HunkKind

/-- A block of a hunk file. -/
inductive Hunk where
  | code (body : Bytes)
  | data (body : Bytes)
  | reloc32 (blocks : List RelocBlock)
  | finish
  deriving DecidableEq, Repr

namespace Hunk

/-- The kind of a block. -/
def kind : Hunk → HunkKind
  | .code _ => .code
  | .data _ => .data
  | .reloc32 _ => .reloc32
  | .finish => .finish

/-- The contents of a segment. -/
def body? : Hunk → Option Bytes
  | .code body | .data body => some body
  | .reloc32 _ | .finish => none

/-- Whether a block opens a segment. -/
def isSegment : Hunk → Bool
  | .code _ | .data _ => true
  | .reloc32 _ | .finish => false

/-- The number of places that a block relocates. -/
def relocationCount : Hunk → Nat
  | .reloc32 blocks => total (·.offsets.length) blocks
  | _ => 0

end Hunk

/-! ## 3. Files -/

/-- What a file says about the segments that it holds. -/
inductive Extent where
  /-- All segments are there. -/
  | complete
  /-- A range of segments of a larger program. -/
  | range (first last : UInt32)
  deriving DecidableEq, Repr

/-- A hunk file. -/
structure HunkFile where
  extent : Extent
  sizes : List SegmentSize
  hunks : List Hunk
  deriving DecidableEq, Repr

namespace HunkFile

/-- Whether all segments are there. -/
def isComplete (file : HunkFile) : Bool :=
  file.extent = .complete

/-- The number of segments in the file. -/
def segmentCount (hunks : List Hunk) : Nat :=
  hunks.countP Hunk.isSegment

/-- The contents of the first code hunk. -/
def firstCode? (file : HunkFile) : Option Bytes :=
  file.hunks.findSome? fun
    | .code body => some body
    | _ => none

end HunkFile

end AmigaBinary
