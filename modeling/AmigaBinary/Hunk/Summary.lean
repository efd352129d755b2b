import AmigaBinary.Hunk.Basic

/-!
# Summaries of hunks

A table of the blocks of a file, with the memory type that the size table has for each segment.
The first segment in the file takes the first entry of the table.
-/

namespace AmigaBinary

/-- A line of the table of blocks. -/
structure HunkSummary where
  index : Nat
  kind : HunkKind
  length : Nat
  memory : Option MemoryType
  relocations : Nat
  deriving DecidableEq, Repr

/-- The lines of `hunks`, the first of which has the number `index`; `sizes` are the entries of
    the size table that are left for segments. -/
def summarize : List Hunk → Nat → List SegmentSize → List HunkSummary
  | [], _, _ => []
  | hunk :: hunks, index, sizes =>
    let line (memory : Option MemoryType) : HunkSummary :=
      ⟨index, hunk.kind, (hunk.body?.getD []).length, memory, hunk.relocationCount⟩
    if hunk.isSegment then
      line (sizes.head?.map (·.memory)) :: summarize hunks (index + 1) sizes.tail
    else
      line none :: summarize hunks (index + 1) sizes

/-- The table of the blocks of a file. -/
def HunkFile.summary (file : HunkFile) : List HunkSummary :=
  summarize file.hunks 0 file.sizes

end AmigaBinary
