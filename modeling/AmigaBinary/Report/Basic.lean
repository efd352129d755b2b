import AmigaBinary.Hunk.Summary
import AmigaBinary.Library.Basic
import AmigaBinary.Program.Basic
import AmigaBinary.Registry.Basic
import AmigaBinary.Registry.Slot
import AmigaBinary.Routine.Pattern

/-!
# Reports

A report says what a file is and what it holds: the table of its blocks, and the analysis of the
library or program in it.
-/

namespace AmigaBinary

/-! ## 1. Kinds of files and notes -/

/-- What a file turned out to be. -/
inductive FileKind where
  /-- An executable or object file. -/
  | hunk
  | library
  | program
  deriving DecidableEq, Repr

/-- The name of a kind of file. -/
def FileKind.identifier : FileKind → String
  | .hunk => "hunk"
  | .library => "library"
  | .program => "program"

/-- The weight of a note. -/
inductive NoteLevel where
  | info
  | warning
  deriving DecidableEq, Repr

/-- The name of a weight. -/
def NoteLevel.identifier : NoteLevel → String
  | .info => "info"
  | .warning => "warning"

/-- A remark on a file. -/
structure Note where
  level : NoteLevel
  message : String
  /-- What was being done. -/
  context : Option String
  deriving DecidableEq, Repr

/-! ## 2. Libraries -/

/-- What is known of a library from its digest. -/
structure KnownLibrary where
  name : String
  version : String
  slot : Option UInt8
  deriving DecidableEq, Repr

/-- What is known of a library from its entries in the registry and in the table of slots. The
    registry is more exact on the name. -/
def KnownLibrary.ofEntries : Option ResolvedLibrary → Option ExtensionSlot → Option KnownLibrary
  | some library, slot => some ⟨library.name, library.version, slot.map (·.slot)⟩
  | none, some slot => some ⟨slot.name, slot.version, some slot.slot⟩
  | none, none => none

/-- A routine of a library. -/
structure RoutineReport where
  number : UInt16
  /-- The name of the routine in the registry. -/
  name : Option String
  length : Nat
  pattern : Option Routine.Pattern
  deriving DecidableEq, Repr

/-- The analysis of a library. -/
structure LibraryReport where
  alwaysRun : Bool
  ap20 : Bool
  known : Option KnownLibrary
  title : List String
  tokens : List Token
  routines : List RoutineReport
  deriving DecidableEq, Repr

/-! ## 3. Programs -/

/-- A line of the table of banks. -/
structure BankSummary where
  kind : BankKind
  number : Option UInt32
  length : Nat
  deriving DecidableEq, Repr

/-- The line of a bank. -/
def Bank.summary (bank : Bank) : BankSummary :=
  ⟨bank.kind, bank.number?, bank.contents.length⟩

/-- The analysis of a compiled program. -/
structure ProgramReport where
  loader : Loader
  loaderDigest : String
  flags : UInt32
  pivot : Option UInt32
  mainLength : Nat
  mainRelocations : Nat
  libraryRelocations : Nat
  hasAmosLibrary : Bool
  banks : List BankSummary
  deriving DecidableEq, Repr

/-- The analysis of a program. -/
def Program.report (program : Program) : ProgramReport where
  loader := program.loader
  loaderDigest := program.loaderDigest
  flags := program.flags
  pivot := program.parts.pivot?
  mainLength := program.mainHunk.length
  mainRelocations := program.mainRelocations.length
  libraryRelocations := program.libraryRelocations.length
  hasAmosLibrary := program.parts.amosLibrary?.isSome
  banks := program.banks.map Bank.summary

/-! ## 4. Files -/

/-- The report on a file. -/
structure Report where
  kind : FileKind
  md5 : String
  size : Nat
  /-- The packer that the file was packed with, if it was unpacked. -/
  packer : Option Packer
  /-- All segments are there. -/
  complete : Bool
  hunks : List HunkSummary
  library : Option LibraryReport
  program : Option ProgramReport
  notes : List Note
  deriving DecidableEq, Repr

namespace Report

/-- A report on the blocks of a file, of which the digest and the size are given. -/
def ofFile (kind : FileKind) (md5 : String) (size : Nat) (file : HunkFile) : Report where
  kind := kind
  md5 := md5
  size := size
  packer := none
  complete := file.isComplete
  hunks := file.summary
  library := none
  program := none
  notes := []

/-- A report with the analysis of a library. -/
def withLibrary (report : Report) (library : LibraryReport) : Report :=
  { report with kind := .library, library := some library }

/-- A report with the analysis of a program. -/
def withProgram (report : Report) (program : ProgramReport) : Report :=
  { report with kind := .program, program := some program }

/-- A report with one more note. -/
def addNote (report : Report) (note : Note) : Report :=
  { report with notes := report.notes ++ [note] }

end Report

end AmigaBinary
