import AmigaBinary.M68k.Instruction
import AmigaBinary.Report.Basic
import AmigaBinary.Text.Json

/-!
# Reports as JSON

Each part of a report is an object with its fields in a fixed order. A part that a file does not
have is left out; a value that is not known is null.
-/

namespace AmigaBinary

open Text (Json)

/-! ## 1. Instructions -/

/-- An instruction of a listing. -/
def M68k.Instruction.json (i : M68k.Instruction) : Json :=
  .object
    [("offset", .nat i.offset),
     ("opcode", .nat i.opcode.toNat),
     ("size", .ofOption (fun size => .string size.letter) i.size?),
     ("operands", .ofList (fun operand => .string operand.text) i.operands),
     ("words", .ofList (fun word => .nat word.toNat) i.words),
     ("bytes", .string (Text.hexBytes i.bytes)),
     ("text", .string i.text)]

/-! ## 2. Routines -/

/-- A section of a routine. -/
def Routine.Section.json : Routine.Section → Json
  | .literal bytes =>
      .object [("type", .string "literal"), ("bytes", .string (Text.hexBytes bytes))]
  | .branch mnemonic target =>
      .object [("type", .string "branch"), ("mnemonic", .string mnemonic.name),
        ("target", .nat target.toNat)]
  | .library call owner routine =>
      .object [("type", .string "library"), ("call", .bool call), ("library", .nat owner.toNat),
        ("routine", .nat routine.toNat)]
  | .register call reg routine =>
      .object [("type", .string "register"), ("call", .bool call), ("reg", .nat reg.toNat),
        ("routine", .nat routine.toNat)]
  | .loadAddress reg routine =>
      .object [("type", .string "load_address"), ("reg", .nat reg.toNat),
        ("routine", .nat routine.toNat)]
  | .rawData => .object [("type", .string "raw_data")]

/-- The fields of a pattern. -/
def Routine.Pattern.jsonFields (pattern : Routine.Pattern) : List (String × Json) :=
  [("sections", .ofList Routine.Section.json pattern.sections),
   ("redirect_target", .ofOption (fun target => .nat target.toNat) pattern.redirectTarget),
   ("fallthrough_target", .ofOption (fun target => .nat target.toNat) pattern.fallthroughTarget)]

/-- A field that is left out if it has no value. -/
def optionalField {α : Type} (name : String) (json : α → Json) : Option α → List (String × Json)
  | some value => [(name, json value)]
  | none => []

/-- A routine of a library. -/
def RoutineReport.json (routine : RoutineReport) : Json :=
  .object
    ([("number", .nat routine.number.toNat),
      ("name", .ofOption .string routine.name),
      ("length", .nat routine.length)]
      ++ optionalField "pattern" (fun pattern => .object pattern.jsonFields) routine.pattern)

/-! ## 3. Libraries and programs -/

/-- A keyword of a library. -/
def Token.json (token : Token) : Json :=
  .object
    [("instruction", .number token.instruction),
     ("function", .number token.function),
     ("name", .string token.name),
     ("signature", .string token.signature),
     ("terminator", .number token.terminator)]

/-- What is known of a library. -/
def KnownLibrary.json (known : KnownLibrary) : Json :=
  .object
    [("name", .string known.name),
     ("version", .string known.version),
     ("slot", .ofOption (fun slot => .nat slot.toNat) known.slot)]

/-- The analysis of a library. -/
def LibraryReport.json (library : LibraryReport) : Json :=
  .object
    [("always_run", .bool library.alwaysRun),
     ("ap20", .bool library.ap20),
     ("known", .ofOption KnownLibrary.json library.known),
     ("title", .ofList .string library.title),
     ("tokens", .ofList Token.json library.tokens),
     ("routines", .ofList RoutineReport.json library.routines)]

/-- A line of the table of banks. -/
def BankSummary.json (bank : BankSummary) : Json :=
  .object
    [("kind", .string bank.kind.identifier),
     ("number", .ofOption (fun number => .nat number.toNat) bank.number),
     ("length", .nat bank.length)]

/-- The analysis of a program. -/
def ProgramReport.json (program : ProgramReport) : Json :=
  .object
    [("loader", .string program.loader.identifier),
     ("loader_hash", .string program.loaderDigest),
     ("flags", .nat program.flags.toNat),
     ("pivot", .ofOption (fun pivot => .nat pivot.toNat) program.pivot),
     ("main_length", .nat program.mainLength),
     ("main_relocations", .nat program.mainRelocations),
     ("library_relocations", .nat program.libraryRelocations),
     ("has_amos_library", .bool program.hasAmosLibrary),
     ("banks", .ofList BankSummary.json program.banks)]

/-! ## 4. Reports -/

/-- A line of the table of blocks. -/
def HunkSummary.json (hunk : HunkSummary) : Json :=
  .object
    [("index", .nat hunk.index),
     ("kind", .string hunk.kind.identifier),
     ("length", .nat hunk.length),
     ("memory", .ofOption (fun memory => .string memory.identifier) hunk.memory),
     ("relocations", .nat hunk.relocations)]

/-- A note. -/
def Note.json (note : Note) : Json :=
  .object
    [("level", .string note.level.identifier),
     ("message", .string note.message),
     ("context", .ofOption .string note.context)]

/-- The fields of a report. -/
def Report.jsonFields (report : Report) : List (String × Json) :=
  [("kind", .string report.kind.identifier),
   ("md5", .string report.md5),
   ("size", .nat report.size),
   ("packer", .ofOption (fun packer => .string packer.identifier) report.packer),
   ("complete", .bool report.complete),
   ("hunks", .ofList HunkSummary.json report.hunks)]
    ++ optionalField "library" LibraryReport.json report.library
    ++ optionalField "program" ProgramReport.json report.program
    ++ [("notes", .ofList Note.json report.notes)]

end AmigaBinary
