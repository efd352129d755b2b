import AmigaBinary.M68k.Instruction
import AmigaBinary.Report.Basic
import AmigaBinary.Text.Columns

/-!
# Reports as text

The text for a reader has a heading, a line for each property of the file and an indented table for
each list. It has two levels of detail besides the normal one: less is one line a file, more adds
the keywords and routines of libraries.
-/

namespace AmigaBinary.Human

open Text (alignLeft alignRight)

/-- How much a text says. -/
inductive Detail where
  | quiet
  | normal
  | verbose
  deriving DecidableEq, Repr

/-! ## 1. Pieces of lines -/

/-- The text for a value, or nothing. -/
def shown {α : Type} (value : Option α) (text : α → String) : String :=
  match value with
  | some a => text a
  | none => ""

/-- A text that holds under a condition, or nothing. -/
def onlyIf (condition : Bool) (text : String) : String :=
  if condition then text else ""

/-- The lines of a table. -/
def lines {α : Type} (line : α → String) (rows : List α) : String :=
  String.join (rows.map line)

/-- A heading above a table that has rows. -/
def titled {α : Type} (heading : String) (line : α → String) (rows : List α) : Option String :=
  if rows.isEmpty then none else some (heading ++ lines line rows)

/-! ## 2. Files -/

/-- The heading of a file. -/
def file (detail : Detail) (path : String) : String :=
  onlyIf (detail ≠ .quiet) ("File: " ++ path ++ "\n")

/-- The properties of a file. -/
def summary (detail : Detail) (report : Report) : String :=
  if detail = .quiet then report.md5 ++ "\t" ++ report.kind.identifier ++ "\n"
  else
    "  Kind:       " ++ report.kind.identifier ++ "\n"
      ++ s!"  Size:       {report.size} bytes\n"
      ++ "  MD5:        " ++ report.md5 ++ "\n"
      ++ shown report.packer (fun packer => "  Packer:     " ++ packer.title ++ "\n")
      ++ onlyIf (!report.complete) "  Layout:     partial (overlay or object)\n"

/-- A line of the table of blocks. -/
def hunkLine (hunk : HunkSummary) : String :=
  "    " ++ alignRight 3 (toString hunk.index) ++ "  " ++ alignLeft 12 hunk.kind.title
    ++ onlyIf (0 < hunk.length) (" " ++ alignRight 8 (toString hunk.length) ++ " bytes")
    ++ shown hunk.memory (fun memory => "  " ++ memory.title)
    ++ onlyIf (0 < hunk.relocations) s!" {hunk.relocations} relocations"
    ++ "\n"

/-- The table of blocks. -/
def hunks (detail : Detail) (rows : List HunkSummary) : Option String :=
  if detail = .quiet then none else titled "  Hunks:\n" hunkLine rows

/-- A line of the list of notes. -/
def noteLine (note : Note) : String :=
  "    [" ++ note.level.identifier ++ "] " ++ note.message
    ++ shown note.context (fun context => " (" ++ context ++ ")") ++ "\n"

/-- The notes. -/
def notes (detail : Detail) (rows : List Note) : Option String :=
  if detail = .quiet then none else titled "  Notes:\n" noteLine rows

/-! ## 3. Libraries -/

/-- The name of a library. -/
def knownLine : Option KnownLibrary → String
  | some known =>
      "  Library:    " ++ known.name ++ " " ++ known.version
        ++ shown known.slot (fun slot => s!" (slot {slot.toNat})") ++ "\n"
  | none => "  Library:    unknown\n"

/-- The flags of a library. -/
def flagsLine (library : LibraryReport) : String :=
  let flags := (if library.alwaysRun then ["always-run"] else [])
    ++ (if library.ap20 then ["AP20"] else [])
  onlyIf (!flags.isEmpty) ("  Flags:      " ++ ", ".intercalate flags ++ "\n")

/-- A line of the table of keywords. -/
def tokenLine (token : Token) : String :=
  "    token " ++ alignRight 6 (toString token.instruction) ++ " "
    ++ alignRight 6 (toString token.function) ++ "  " ++ token.name ++ token.signature ++ "\n"

/-- The pattern of a routine in short. -/
def patternText (pattern : Routine.Pattern) : String :=
  s!"  [{pattern.sections.length} sections, {pattern.references.length} refs"
    ++ shown pattern.fallthroughTarget (fun target => s!", falls to L{target.toNat}") ++ "]"

/-- A line of the table of routines. -/
def routineLine (routine : RoutineReport) : String :=
  "    L" ++ alignLeft 4 (toString routine.number.toNat) ++ " "
    ++ alignRight 6 (toString routine.length) ++ " bytes"
    ++ shown routine.name (fun name => "  " ++ name)
    ++ shown routine.pattern patternText ++ "\n"

/-- The analysis of a library. -/
def library (detail : Detail) (report : LibraryReport) : Option String :=
  if detail = .quiet then none
  else
    some (knownLine report.known
      ++ onlyIf (!report.title.isEmpty) ("  Title:      " ++ " / ".intercalate report.title ++ "\n")
      ++ flagsLine report
      ++ s!"  Routines:   {report.routines.length}  Tokens: {report.tokens.length}\n"
      ++ onlyIf (detail = .verbose)
        (lines tokenLine report.tokens ++ lines routineLine report.routines))

/-! ## 4. Programs -/

/-- A line of the table of banks. -/
def bankLine (bank : BankSummary) : String :=
  "    " ++ alignLeft 8 bank.kind.identifier
    ++ shown bank.number (fun number => s!" #{number.toNat}")
    ++ s!" {bank.length} bytes\n"

/-- The analysis of a program. -/
def program (detail : Detail) (report : ProgramReport) : Option String :=
  if detail = .quiet then none
  else
    some (s!"  Loader:     {report.loader.title} ({report.loaderDigest})\n"
      ++ "  Flags:      $" ++ Text.hexFixed 8 report.flags.toNat
      ++ shown report.pivot (fun pivot => "  Pivot: $" ++ Text.hex pivot.toNat) ++ "\n"
      ++ s!"  Main:       {report.mainLength} bytes, {report.mainRelocations} relocations "
      ++ s!"({report.libraryRelocations} in library)\n"
      ++ onlyIf report.hasAmosLibrary "  AMOS lib:   present\n"
      ++ lines bankLine report.banks)

/-! ## 5. Listings -/

/-- A line of a listing. -/
def instructionLine (detail : Detail) (i : M68k.Instruction) : String :=
  if detail = .quiet then i.text ++ "\n"
  else
    Text.hexFixed 8 i.offset ++ "  " ++ alignLeft 20 (Text.hexBytes i.bytes) ++ "  " ++ i.text ++ "\n"

/-- A listing. -/
def listing (detail : Detail) (path : String) (instructions : List M68k.Instruction) : String :=
  file detail path ++ lines (instructionLine detail) instructions

end AmigaBinary.Human
