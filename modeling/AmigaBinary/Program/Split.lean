import AmigaBinary.Program.Basic
import AmigaBinary.Program.LoaderDigest
import AmigaBinary.Program.Relocations

/-!
# The hunks of a program

The family of the loader fixes what the hunks behind it are. All hunks behind those with a fixed
place are banks.
-/

namespace AmigaBinary

/-! ## 1. Banks -/

namespace Bank

/-- The magic in front of a sprite bank. -/
def spriteMagic : Bytes :=
  Bytes.ascii "AmSp"

/-- The magic in front of an icon bank. -/
def iconMagic : Bytes :=
  Bytes.ascii "AmIc"

/-- A numbered bank: its header and its contents. -/
def readNumbered (loader : Loader) (body : Bytes) : Except Error Bank :=
  match loader with
  | .classic => do
      let number ← Bytes.readWord16 body 0
      let contents ← Bytes.readSlice body 4 (body.length - 4)
      .ok (.numbered number.toUInt32 0 contents)
  | .pro => do
      let number ← Bytes.readWord32 body 0
      let flags ← Bytes.readWord16 body 4
      let contents ← Bytes.readSlice body 8 (body.length - 8)
      .ok (.numbered number flags contents)

/-- A bank without what the compiler puts in front of it. -/
def readBody (loader : Loader) (hunk : Bytes) : Except Error Bytes :=
  match loader with
  | .classic => Bytes.readSlice hunk 4 (hunk.length - 4)
  | .pro => .ok hunk

/-- The bank in a hunk. -/
def read (loader : Loader) (hunk : Bytes) : Except Error Bank := do
  let body ← readBody loader hunk
  let magic := body.take 4
  if magic = spriteMagic then .ok (.sprites body)
  else if magic = iconMagic then .ok (.icons body)
  else readNumbered loader body

/-- The banks in a row of hunks, the first of which has the number `index`. -/
def readAll (loader : Loader) : Nat → List Bytes → Except Error (List Bank)
  | _, [] => .ok []
  | index, hunk :: hunks => do
      let bank ← (read loader hunk).mapError (.during (.parsingBank index))
      let banks ← readAll loader (index + 1) hunks
      .ok (bank :: banks)

end Bank

/-! ## 2. Programs -/

/-- The number of hunks with a fixed place. -/
def Loader.hunkCount : Loader → Nat
  | .classic => 8
  | .pro => 9

/-- The language library in its hunk. A zero longword stands for none. -/
def amosLibraryOf (hunk : Bytes) : Option Bytes :=
  if hunk = [0, 0, 0, 0] then none else some hunk

namespace Program

/-- A program from its parts: the places to relocate and the banks are read from their hunks. -/
def assemble (flags : UInt32) (loaderHunk mainHunk relocationHunk environment mouse : Bytes)
    (parts : LoaderParts) (banks : List Bytes) : Except Error Program := do
  let (mainRelocations, rest) := Relocations.read relocationHunk
  let (libraryRelocations, _) := Relocations.read rest
  let banks ← Bank.readAll parts.loader 0 banks
  .ok {
    loaderDigest := Loader.digest loaderHunk
    flags := flags
    loaderHunk := loaderHunk
    mainHunk := mainHunk
    relocationHunk := relocationHunk
    environment := environment
    mouse := mouse
    parts := parts
    mainRelocations := mainRelocations
    libraryRelocations := libraryRelocations
    banks := banks
  }

/-- The program in a row of hunks. -/
def ofHunks (loader : Loader) (hunks : List Bytes) : Except Error Program :=
  match loader, hunks with
  | .classic, loaderHunk :: main :: relocations :: fixedLibrary :: environment :: mouse ::
      defaultFont :: keyMap :: banks => do
      let flags ← Bytes.readWord16 loaderHunk 2
      assemble flags.toUInt32 loaderHunk main relocations environment mouse
        (.classic ⟨fixedLibrary, defaultFont, keyMap⟩) banks
  | .pro, loaderHunk :: main :: dynamicLibrary :: relocations :: amosLibrary :: mouse ::
      environment :: defaultBank :: errorMessages :: banks => do
      let flags ← Bytes.readWord32 loaderHunk 2
      let pivot ← Bytes.readWord32 loaderHunk 8
      assemble flags loaderHunk main relocations environment mouse
        (.pro ⟨pivot, dynamicLibrary, amosLibraryOf amosLibrary, defaultBank, errorMessages⟩) banks
  | loader, hunks => .error (.badProgram (.tooFewHunks loader loader.hunkCount hunks.length))

end Program

end AmigaBinary
