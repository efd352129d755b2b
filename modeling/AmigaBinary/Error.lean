import AmigaBinary.Text.Hexadecimal
import AmigaBinary.Text.Quoted
import AmigaBinary.M68k.Mnemonic
import AmigaBinary.Packer.Kind
import AmigaBinary.Program.Loader

/-!
# Errors

Every parser, decompressor and linker here fails with a value of the type `Error`, which names
the cause. The wording is in one function, `Error.message`, and the broad kind of an error in
another, `Error.category`.
-/

namespace AmigaBinary

/-! ## 1. Causes -/

/-- A compression scheme. -/
inductive Codec where
  | squash
  | powerPacker
  | stoneCracker
  deriving DecidableEq, Repr

/-- The name of a compression scheme in messages. -/
def Codec.title : Codec → String
  | .squash => "squash"
  | .powerPacker => "PowerPacker"
  | .stoneCracker => "StoneCracker"

/-- A header or parameter that no compressed stream has. -/
inductive StreamFault where
  /-- A squashed region too short for its last three longwords. -/
  | noTrailer (length : Nat)
  | largerThanBuffer (size buffer : Nat)
  | oddLength (length : Nat)
  | skipCount (bits : Nat)
  | offsetWidth (bits : Nat)
  | imageHunkCount
  | imageEnd
  deriving DecidableEq, Repr

namespace StreamFault

/-- The scheme that a fault belongs to. -/
def codec : StreamFault → Codec
  | .noTrailer _ | .largerThanBuffer _ _ => .squash
  | .oddLength _ | .skipCount _ => .powerPacker
  | .offsetWidth _ | .imageHunkCount | .imageEnd => .stoneCracker

/-- The wording of a fault. -/
def message : StreamFault → String
  | .noTrailer length => s!"compressed region of {length} bytes has no trailer"
  | .largerThanBuffer size buffer => s!"decompressed size {size} exceeds buffer size {buffer}"
  | .oddLength length => s!"length {length} is not a multiple of 4"
  | .skipCount bits => s!"skip bit count {bits} out of range"
  | .offsetWidth bits => s!"eff {bits} outside 10..=14"
  | .imageHunkCount => "hunk count overflow"
  | .imageEnd => "hunk image is not terminated by 0xFFFF"

end StreamFault

/-- A part of a library that contradicts the rest. -/
inductive SectionFault where
  /-- The code blocks do not fill the space between tokens and title. -/
  | blockTable (blocksEnd titleStart : Nat)
  /-- A branch with a mnemonic that does not branch. -/
  | notABranch (mnemonic : M68k.Mnemonic)
  | noCodeHunk
  /-- A code block whose number is too large for a routine. -/
  | routineNumber (block : Nat)
  deriving DecidableEq, Repr

/-- The part that a fault lies in, and its wording. -/
def SectionFault.message : SectionFault → String
  | .blockTable blocksEnd titleStart =>
      s!"code block table: blocks end at {blocksEnd}, title region starts at {titleStart}"
  | .notABranch mnemonic => s!"branch section: {mnemonic.name} is not a branch"
  | .noCodeHunk => "library: no code hunk"
  | .routineNumber block => s!"code block table: block {block} exceeds the routine number range"

/-- A hunk file that is no compiled program. -/
inductive ProgramFault where
  | partialFile
  | missingEnd (hunk : Nat)
  | missingCode (hunk : Nat)
  | noHunks
  | tooFewHunks (loader : Loader) (needed found : Nat)
  deriving DecidableEq, Repr

/-- The wording of a fault. -/
def ProgramFault.message : ProgramFault → String
  | .partialFile => "hunk file is partial"
  | .missingEnd hunk => s!"expected HUNK_END after code hunk {hunk}"
  | .missingCode hunk => s!"expected HUNK_CODE at hunk {hunk}"
  | .noHunks => "no hunks"
  | .tooFewHunks loader needed found =>
      s!"{loader.title} loader needs {needed} hunks, found {found}"

/-- Library definitions that contradict each other. -/
inductive RegistryFault where
  | duplicateLibrary
  | unknownBase (name version base : String)
  | cyclicChain (name version : String)
  deriving DecidableEq, Repr

/-- The wording of a fault. -/
def RegistryFault.message : RegistryFault → String
  | .duplicateLibrary => "duplicate library MD5"
  | .unknownBase name version base => s!"{name} {version} extends unknown library {base}"
  | .cyclicChain name version => s!"{name} {version} has a cyclic extends chain"

/-- What was being done when an error arose. -/
inductive Activity where
  | parsingUnpacked (packer : Packer)
  | unsquashingHunk (hunk : Nat)
  | parsingBank (hunk : Nat)
  | parsingProgram
  | parsingLibraryHeader
  deriving DecidableEq, Repr

/-- The wording of an activity. -/
def Activity.message : Activity → String
  | .parsingUnpacked packer => s!"parsing {packer.title} output"
  | .unsquashingHunk hunk => s!"unsquashing hunk {hunk}"
  | .parsingBank hunk => s!"parsing bank hunk {hunk}"
  | .parsingProgram => "parsing AMOS program"
  | .parsingLibraryHeader => "parsing library header"

/-- The cause of a failure. -/
inductive Error where
  /-- Fewer bytes than a read needs. -/
  | truncated (offset expected actual : Nat)
  | wrongMagic (expected actual : String)
  /-- A hunk file that needs shared libraries to be loaded first. -/
  | residentLibraries (names : List String)
  | hunkRange (first last total : UInt32)
  | unknownHunk (tag : UInt32) (offset : Nat)
  | badSection (fault : SectionFault)
  /-- A token table that runs into the code. -/
  | unterminatedTokens (offset : Nat)
  | malformed (fault : StreamFault)
  | inputExhausted (codec : Codec) (offset : Nat)
  /-- A token that would write in front of the output. -/
  | outputOverrun (codec : Codec) (needed remaining : Nat)
  /-- A copy from outside the output. -/
  | copyOutOfRange (codec : Codec) (source length : Nat)
  /-- Input left over in a squashed stream whose output is complete. -/
  | unconsumedInput (bytes : Nat) (register : UInt32)
  | checksum (residual : UInt32)
  | packedHunkType (word : UInt16)
  | unknownLoader (hash : String)
  | badProgram (fault : ProgramFault)
  | duplicateRoutine (library : UInt8) (routine : UInt16)
  | unresolvedRoutine (library : UInt8) (routine : UInt16)
  | displacementRange (displacement : Int) (offset : Nat)
  /-- An operand without the capability that its instruction needs. -/
  | invalidOperand (opcode : UInt16) (fault : String)
  | badRegistry (fault : RegistryFault)
  | during (activity : Activity) (cause : Error)
  deriving DecidableEq, Repr

namespace Error

/-! ## 2. Wording -/

/-- The text of an error. What was being done comes in front of the cause. -/
def message : Error → String
  | .truncated offset expected actual =>
      s!"Truncated data at offset {offset}: expected {expected} bytes, got {actual}"
  | .wrongMagic expected actual => s!"Invalid magic bytes: expected {expected}, got {actual}"
  | .residentLibraries names =>
      "Resident libraries are not supported: " ++ Text.quoteList names
  | .hunkRange first last total =>
      s!"Invalid hunk range: first {first.toNat}, last {last.toNat}, total {total.toNat}"
  | .unknownHunk tag offset =>
      s!"Unknown hunk type 0x{Text.upperHexFixed 8 tag.toNat} at offset {offset}"
  | .badSection fault => "Invalid " ++ fault.message
  | .unterminatedTokens offset => s!"Unterminated token table at offset {offset}"
  | .malformed fault => s!"{fault.codec.title} stream malformed: {fault.message}"
  | .inputExhausted codec offset =>
      s!"{codec.title} stream exhausted at input offset {offset}"
  | .outputOverrun codec needed remaining =>
      s!"{codec.title} output overrun: {needed} bytes requested with {remaining} remaining"
  | .copyOutOfRange codec source length =>
      s!"{codec.title} back-reference out of range: source {source} with buffer length {length}"
  | .unconsumedInput bytes register =>
      s!"squash stream has unconsumed input: {bytes} bytes, register "
        ++ "0x" ++ Text.upperHexFixed 8 register.toNat
  | .checksum residual =>
      "Squash checksum mismatch: residual 0x" ++ Text.upperHexFixed 8 residual.toNat
  | .packedHunkType word =>
      "Unsupported packed hunk type word 0x" ++ Text.upperHexFixed 4 word.toNat
  | .unknownLoader hash => s!"Unknown AMOS loader (md5 {hash})"
  | .badProgram fault => "Invalid AMOS program: " ++ fault.message
  | .duplicateRoutine library routine =>
      s!"Duplicate routine {routine.toNat} in library {library.toNat}"
  | .unresolvedRoutine library routine =>
      s!"Unresolved routine {routine.toNat} in library {library.toNat}"
  | .displacementRange displacement offset =>
      s!"Displacement {displacement} at offset {offset} exceeds 16-bit range"
  | .invalidOperand opcode fault =>
      s!"Invalid operand for opcode 0x{Text.upperHexFixed 4 opcode.toNat}: {fault}"
  | .badRegistry fault => "Registry error: " ++ fault.message
  | .during activity cause => activity.message ++ ": " ++ message cause

/-- The texts of an error and of the causes below it, outermost first. -/
def chain : Error → List String
  | .during activity cause => message (.during activity cause) :: chain cause
  | error => [message error]

/-! ## 3. Categories -/

/-- A broad kind of error. -/
inductive Category where
  /-- Wrong magic, truncated data or contradicting lengths. -/
  | structural
  /-- A failed checksum, a copy from outside the output or input left over. -/
  | integrity
  /-- Well-formed input of a shape that is not handled. -/
  | unsupported
  deriving DecidableEq, Repr

/-- The category of an error. What was being done does not change it. -/
def category : Error → Category
  | .checksum _ | .copyOutOfRange _ _ _ | .unconsumedInput _ _ => .integrity
  | .residentLibraries _ | .packedHunkType _ | .unknownLoader _ | .duplicateRoutine _ _
  | .unresolvedRoutine _ _ | .displacementRange _ _ => .unsupported
  | .during _ cause => category cause
  | _ => .structural

end Error

end AmigaBinary
