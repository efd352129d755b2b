import AmigaBinary.Library.TokenTable

/-!
# Reading libraries

The first code hunk of a library has a header of 18 bytes with the lengths of its four sections,
an optional marker, and the sections: a table with the lengths of the code blocks in words, the
token table, the code blocks and the title strings. The blocks have to fill their section exactly.
-/

namespace AmigaBinary.Library

/-! ## 1. Sections -/

/-- The length of the header. -/
def headerLength : Nat := 18

/-- The marker of the professional release. -/
def marker : Bytes :=
  Bytes.ascii "AP20"

/-- The offsets at which the sections start, and the one behind the last section. -/
structure Sections where
  table : Nat
  tokens : Nat
  code : Nat
  title : Nat
  finish : Nat
  deriving DecidableEq, Repr

/-- Whether the marker follows the header. -/
def hasMarker (data : Bytes) : Bool :=
  (data.drop headerLength).take marker.length == marker

/-- The sections of a library, which lie one behind the other. -/
def readSections (data : Bytes) : Except Error Sections := do
  let table := if hasMarker data then headerLength + marker.length else headerLength
  let tableLength ← Bytes.readWord32 data 0
  let tokensLength ← Bytes.readWord32 data 4
  let codeLength ← Bytes.readWord32 data 8
  let titleLength ← Bytes.readWord32 data 12
  let tokens := table + tableLength.toNat
  let code := tokens + tokensLength.toNat
  let title := code + codeLength.toNat
  let finish := title + titleLength.toNat
  if data.length < finish then
    .error (.truncated title titleLength.toNat (data.length - title))
  else .ok ⟨table, tokens, code, title, finish⟩

/-- The bytes of the data between two offsets. -/
def between (data : Bytes) (start finish : Nat) : Bytes :=
  (data.drop start).take (finish - start)

/-! ## 2. Titles -/

/-- The parts of a byte string between its NUL bytes. -/
def splitAtNuls : Bytes → List Bytes
  | [] => [[]]
  | byte :: rest =>
    if byte = 0 then [] :: splitAtNuls rest
    else
      match splitAtNuls rest with
      | [] => [[byte]]
      | part :: parts => (byte :: part) :: parts

/-- The strings of a title section. NULs at its end are padding. -/
def titleStrings (region : Bytes) : List String :=
  match Bytes.trimNuls region with
  | [] => []
  | bytes => (splitAtNuls bytes).map Text.latin1

/-! ## 3. Code blocks -/

/-- The 16-bit words of a byte string; an odd byte at the end is left out. -/
def wordsOf : Bytes → List UInt16
  | a :: b :: rest => Bytes.word16 a b :: wordsOf rest
  | _ => []

/-- Code blocks of the given lengths in words, and the cursor behind them. -/
def readBlocks : List UInt16 → Cursor → Except Error (List Bytes × Cursor)
  | [], cursor => .ok ([], cursor)
  | words :: rest, cursor => do
      let (block, cursor) ← cursor.take (2 * words.toNat)
      let (blocks, cursor) ← readBlocks rest cursor
      .ok (block :: blocks, cursor)

/-- The code blocks of a library. -/
def readCode (data : Bytes) (sections : Sections) : Except Error (List Bytes) := do
  let lengths := wordsOf (between data sections.table sections.tokens)
  let (blocks, cursor) ← readBlocks lengths ⟨data.drop sections.code, sections.code⟩
  if cursor.position = sections.title then .ok blocks
  else .error (.badSection (.blockTable cursor.position sections.title))

/-! ## 4. Libraries -/

/-- The library in a code hunk. -/
def parse (data : Bytes) : Except Error Library :=
  if data.length < headerLength then .error (.truncated 0 headerLength data.length)
  else do
    let flag ← Bytes.readWord16 data 16
    let sections ← readSections data
    let codeBlocks ← readCode data sections
    let tokens ← TokenTable.read data sections.tokens sections.code
    .ok {
      alwaysRun := flag ≠ 0
      ap20 := hasMarker data
      codeBlocks := codeBlocks
      tokens := tokens
      title := titleStrings (between data sections.title sections.finish)
    }

end AmigaBinary.Library
