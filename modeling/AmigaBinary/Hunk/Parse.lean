import AmigaBinary.Cursor
import AmigaBinary.Hunk.Basic
import AmigaBinary.Text.Latin1

/-!
# Reading hunk files

The header names resident libraries, which are not supported, then the number of segments, the
range that is present and a table of all sizes. The blocks follow up to the end of the file. A
file with as many segments as the table has entries is complete, whatever its range says.
-/

namespace AmigaBinary

namespace Hunk

/-! ## 1. Tags -/

def codeTag : UInt32 := 0x3E9
def dataTag : UInt32 := 0x3EA
def reloc32Tag : UInt32 := 0x3EC
def finishTag : UInt32 := 0x3F2
def headerTag : UInt32 := 0x3F3

/-- The bits of a tag that tell its type; the three above them are memory flags. -/
def tagMask : UInt32 := 0x1FFFFFFF

/-! ## 2. Relocations -/

/-- The 32-bit words of a byte string; a rest of less than four bytes is left out. -/
def wordsOf : Bytes → List UInt32
  | a :: b :: c :: d :: rest => Bytes.word32 a b c d :: wordsOf rest
  | _ => []

/-- One list of relocations, or the zero that ends them. -/
def readRelocBlock (cursor : Cursor) : Except Error (Option RelocBlock × Cursor) := do
  let (count, cursor) ← cursor.word32
  if count = 0 then
    .ok (none, cursor)
  else
    let (target, cursor) ← cursor.word32
    let (offsets, cursor) ← cursor.take (4 * count.toNat)
    .ok (some ⟨target, wordsOf offsets⟩, cursor)

theorem length_of_readRelocBlock {c next : Cursor} {b : Option RelocBlock}
    (h : readRelocBlock c = .ok (b, next)) : next.rest.length < c.rest.length := by
  simp only [readRelocBlock, bind, Except.bind] at h
  split at h
  · simp at h
  · rename_i v hv
    have h1 := Cursor.length_of_word32 hv
    split at h
    · simp only [Except.ok.injEq, Prod.mk.injEq] at h
      obtain ⟨-, rfl⟩ := h
      omega
    · split at h
      · simp at h
      · rename_i w hw
        have h2 := Cursor.length_of_word32 hw
        split at h
        · simp at h
        · rename_i x hx
          have h3 := Cursor.length_of_take hx
          simp only [Except.ok.injEq, Prod.mk.injEq] at h
          obtain ⟨-, rfl⟩ := h
          omega

/-- The lists of relocations up to the zero that ends them. -/
def readRelocBlocks (cursor : Cursor) : Except Error (List RelocBlock × Cursor) :=
  match _h : readRelocBlock cursor with
  | .error e => .error e
  | .ok (none, next) => .ok ([], next)
  | .ok (some block, next) =>
    match readRelocBlocks next with
    | .error e => .error e
    | .ok (blocks, behind) => .ok (block :: blocks, behind)
termination_by cursor.rest.length
decreasing_by exact length_of_readRelocBlock _h

theorem length_of_readRelocBlocks (c : Cursor) : ∀ {bs : List RelocBlock} {next : Cursor},
    readRelocBlocks c = .ok (bs, next) → next.rest.length < c.rest.length := by
  fun_induction readRelocBlocks c with
  | case1 c e h => intro bs next hn; simp at hn
  | case2 c d h =>
      intro bs next hn
      simp only [Except.ok.injEq, Prod.mk.injEq] at hn
      obtain ⟨-, rfl⟩ := hn
      exact length_of_readRelocBlock h
  | case3 c b d h e he ih => intro bs next hn; simp at hn
  | case4 c b d h blocks behind hb ih =>
      intro bs next hn
      simp only [Except.ok.injEq, Prod.mk.injEq] at hn
      obtain ⟨-, rfl⟩ := hn
      have h1 := length_of_readRelocBlock h
      have h2 := ih hb
      omega

/-! ## 3. Blocks -/

/-- The contents of a segment, behind a count of longwords. -/
def readBody (cursor : Cursor) : Except Error (Bytes × Cursor) := do
  let (count, cursor) ← cursor.word32
  cursor.take (4 * count.toNat)

theorem length_of_readBody {c next : Cursor} {body : Bytes}
    (h : readBody c = .ok (body, next)) : next.rest.length < c.rest.length := by
  simp only [readBody, bind, Except.bind] at h
  split at h
  · simp at h
  · rename_i v hv
    have h1 := Cursor.length_of_word32 hv
    have h2 := Cursor.length_of_take h
    omega

/-- The next block. -/
def read (cursor : Cursor) : Except Error (Hunk × Cursor) := do
  let (word, next) ← cursor.word32
  let tag := word &&& tagMask
  if tag = codeTag then
    let (body, next) ← readBody next
    .ok (.code body, next)
  else if tag = dataTag then
    let (body, next) ← readBody next
    .ok (.data body, next)
  else if tag = reloc32Tag then
    let (blocks, next) ← readRelocBlocks next
    .ok (.reloc32 blocks, next)
  else if tag = finishTag then
    .ok (.finish, next)
  else .error (.unknownHunk tag cursor.position)

theorem length_of_read {c next : Cursor} {hunk : Hunk}
    (h : read c = .ok (hunk, next)) : next.rest.length < c.rest.length := by
  simp only [read, bind, Except.bind] at h
  split at h
  · simp at h
  · rename_i v hv
    have h1 := Cursor.length_of_word32 hv
    split at h
    · split at h
      · simp at h
      · rename_i w hw
        have h2 := length_of_readBody hw
        simp only [Except.ok.injEq, Prod.mk.injEq] at h
        obtain ⟨-, rfl⟩ := h
        omega
    · split at h
      · split at h
        · simp at h
        · rename_i w hw
          have h2 := length_of_readBody hw
          simp only [Except.ok.injEq, Prod.mk.injEq] at h
          obtain ⟨-, rfl⟩ := h
          omega
      · split at h
        · split at h
          · simp at h
          · rename_i w hw
            have h2 := length_of_readRelocBlocks _ hw
            simp only [Except.ok.injEq, Prod.mk.injEq] at h
            obtain ⟨-, rfl⟩ := h
            omega
        · split at h
          · simp only [Except.ok.injEq, Prod.mk.injEq] at h
            obtain ⟨-, rfl⟩ := h
            omega
          · simp at h

/-- The blocks up to the end of the file. -/
def readAll (cursor : Cursor) : Except Error (List Hunk) :=
  if cursor.rest.isEmpty then .ok []
  else
    match _h : read cursor with
    | .error e => .error e
    | .ok (hunk, next) =>
      match readAll next with
      | .error e => .error e
      | .ok hunks => .ok (hunk :: hunks)
termination_by cursor.rest.length
decreasing_by exact length_of_read _h

end Hunk

namespace HunkFile

/-! ## 4. The header -/

/-- The name of a resident library: a length and the name, padded with NULs. -/
def readName (cursor : Cursor) : Except Error (Bytes × Cursor) := do
  let (length, cursor) ← cursor.word32
  let (name, cursor) ← cursor.take length.toNat
  .ok (Bytes.trimNuls name, cursor)

theorem length_of_readName {c next : Cursor} {name : Bytes}
    (h : readName c = .ok (name, next)) : next.rest.length < c.rest.length := by
  simp only [readName, bind, Except.bind] at h
  split at h
  · simp at h
  · rename_i v hv
    have h1 := Cursor.length_of_word32 hv
    split at h
    · simp at h
    · rename_i w hw
      have h2 := Cursor.length_of_take hw
      simp only [Except.ok.injEq, Prod.mk.injEq] at h
      obtain ⟨-, rfl⟩ := h
      omega

/-- The names of resident libraries up to an empty one. -/
def readNames (cursor : Cursor) : Except Error (List String × Cursor) :=
  match _h : readName cursor with
  | .error e => .error e
  | .ok ([], next) => .ok ([], next)
  | .ok (byte :: name, next) =>
    match readNames next with
    | .error e => .error e
    | .ok (names, behind) => .ok (Text.latin1 (byte :: name) :: names, behind)
termination_by cursor.rest.length
decreasing_by exact length_of_readName _h

/-- So many entries of the size table. -/
def readSizes : Nat → Cursor → Except Error (List SegmentSize × Cursor)
  | 0, cursor => .ok ([], cursor)
  | count + 1, cursor => do
      let (word, cursor) ← cursor.word32
      let (sizes, cursor) ← readSizes count cursor
      .ok (.ofWord word :: sizes, cursor)

/-- The number of a hexadecimal magic in messages. -/
def magicText (word : UInt32) : String :=
  "0x" ++ Text.upperHexFixed 8 word.toNat

/-- The hunk file that a byte string holds. -/
def parse (data : Bytes) : Except Error HunkFile := do
  let (magic, cursor) ← (Cursor.start data).word32
  if magic ≠ Hunk.headerTag then
    .error (.wrongMagic (magicText Hunk.headerTag) (magicText magic))
  else
    let (names, cursor) ← readNames cursor
    if names ≠ [] then
      .error (.residentLibraries names)
    else
      let (total, cursor) ← cursor.word32
      let (first, cursor) ← cursor.word32
      let (last, cursor) ← cursor.word32
      if last < first ∨ total ≤ last then
        .error (.hunkRange first last total)
      else
        let (sizes, cursor) ← readSizes total.toNat cursor
        let hunks ← Hunk.readAll cursor
        if segmentCount hunks = total.toNat then
          .ok ⟨.complete, sizes, hunks⟩
        else
          .ok ⟨.range first last, sizes, hunks⟩

end HunkFile

end AmigaBinary
