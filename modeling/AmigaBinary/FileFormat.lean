import AmigaBinary.Decrunch.Squash
import AmigaBinary.Decrunch.StoneCracker

/-!
# File formats

The format of a file is told by its first four bytes.
-/

namespace AmigaBinary

/-- A format that is told by a magic. -/
inductive FileFormat where
  | hunk
  | squashed
  | stoneCracker
  /-- No magic that is known. -/
  | raw
  deriving DecidableEq, Repr

namespace FileFormat

/-- The magic in front of a hunk file. -/
def hunkMagic : Bytes :=
  [0x00, 0x00, 0x03, 0xF3]

/-- The format of a file. -/
def detect (data : Bytes) : FileFormat :=
  let magic := data.take 4
  if magic = hunkMagic then .hunk
  else if magic = Decrunch.Squash.magic then .squashed
  else if magic = Decrunch.StoneCracker.magic then .stoneCracker
  else .raw

end FileFormat

end AmigaBinary
