import AmigaBinary.FileFormat
import AmigaBinary.Library.Parse
import AmigaBinary.Library.Relink
import AmigaBinary.Program.Parse
import AmigaBinary.Registry.KnownLibraries
import AmigaBinary.Report.Basic

/-!
# Inspection

A file is inspected as what it turns out to be, or as a library or a program that it has to be. A
program is told by its loader, a library by a header that fits its first code hunk.
-/

namespace AmigaBinary

/-! ## 1. Options -/

/-- What an inspection does. -/
structure InspectOptions where
  /-- Packed files are unpacked. -/
  unpack : Bool := true
  /-- The number of instructions in a listing without an explicit end. -/
  maxInstructions : Nat := 256
  /-- Each routine of a library is analysed. -/
  patterns : Bool := true
  deriving DecidableEq, Repr

/-- Options under which files are read as they are stored. -/
def InspectOptions.raw : InspectOptions :=
  { unpack := false }

/-- The hunk file in bytes, unpacked where the options say so. -/
def HunkFile.read (options : InspectOptions) (data : Bytes) : Except Error HunkFile :=
  if options.unpack then HunkFile.parseUnpacked data else HunkFile.parse data

/-! ## 2. Libraries -/

/-- The library in the first code hunk of a file. -/
def Library.ofFile (file : HunkFile) : Except Error Library :=
  match file.firstCode? with
  | some code => (Library.parse code).mapError (.during .parsingLibraryHeader)
  | none => .error (.badSection .noCodeHunk)

/-- The library in the bytes of a file. -/
def Library.read (options : InspectOptions) (data : Bytes) : Except Error Library :=
  (HunkFile.read options data).bind Library.ofFile

/-- The analysis of a routine, given what the registry has on its library. -/
def RoutineReport.ofCode (options : InspectOptions) (entry : Option ResolvedLibrary)
    (number : UInt16) (code : Bytes) : RoutineReport where
  number := number
  name := entry.bind fun library => library.routineName? number
  length := code.length
  pattern := if options.patterns then some (.ofCode code) else none

/-- The analysis of a library, of whose file the digest is given. -/
def LibraryReport.ofLibrary (options : InspectOptions) (md5 : String) (library : Library) :
    Except Error LibraryReport := do
  let registry ← Registry.known
  let entry := registry.lookup md5
  let routines ← library.routines
  .ok {
    alwaysRun := library.alwaysRun
    ap20 := library.ap20
    known := KnownLibrary.ofEntries entry (ExtensionSlot.ofMd5? md5)
    title := library.title
    tokens := library.tokens
    routines := routines.map fun routine => .ofCode options entry routine.1 routine.2
  }

namespace Report

/-- The note on a library that is not known. -/
def unknownLibraryNote : Note :=
  ⟨.warning, "library not in registry", some "registry lookup"⟩

/-- A report with the analysis of a library, and a note if it is not known. -/
def withLibraryAndNote (report : Report) (library : LibraryReport) : Report :=
  match library.known with
  | some _ => report.withLibrary library
  | none => (report.withLibrary library).addNote unknownLibraryNote

/-! ## 3. Files -/

/-- The note on a file without code. -/
def noCodeNote : Note :=
  ⟨.info, "no code hunk", none⟩

/-- A report on a file with the analysis of what its first code hunk holds. -/
def analyse (options : InspectOptions) (data : Bytes) (file : HunkFile) (report : Report) :
    Except Error Report :=
  match file.firstCode? with
  | none => .ok (report.addNote noCodeNote)
  | some code =>
    if file.isComplete && Loader.isKnown code then do
      let program ← (Program.parse data).mapError (.during .parsingProgram)
      .ok (report.withProgram program.report)
    else
      match Library.parse code with
      | .ok library => do
          let library ← LibraryReport.ofLibrary options report.md5 library
          .ok (report.withLibraryAndNote library)
      | .error _ => .ok report

/-- The report on a file of any kind. -/
def inspect (options : InspectOptions) (data : Bytes) : Except Error Report :=
  if FileFormat.detect data = .hunk then do
    let stored ← HunkFile.parse data
    let file ← if options.unpack then stored.unpack else .ok stored
    let packer := if options.unpack then Packer.detect? stored else none
    let report := Report.ofFile .hunk (Md5.hexDigest data) data.length file
    analyse options data file { report with packer := packer }
  else
    .error (.wrongMagic (Text.hexBytes FileFormat.hunkMagic) (Text.hexBytes (data.take 4)))

/-- The report on a library. -/
def inspectLibrary (options : InspectOptions) (data : Bytes) : Except Error Report := do
  let file ← HunkFile.read options data
  let library ← Library.ofFile file
  let md5 := Md5.hexDigest data
  let library ← LibraryReport.ofLibrary options md5 library
  .ok ((Report.ofFile .library md5 data.length file).withLibraryAndNote library)

/-- The report on a compiled program. The program is unpacked in any case. -/
def inspectProgram (options : InspectOptions) (data : Bytes) : Except Error Report := do
  let program ← Program.parse data
  let file ← HunkFile.read options data
  .ok ((Report.ofFile .program (Md5.hexDigest data) data.length file).withProgram program.report)

end Report

end AmigaBinary
