import AmigaBinary.Report.Human
import AmigaBinary.Report.Json

/-!
# Styles of reports

A report is written for a reader, as JSON or as one line of columns. Only the first style has texts
for the parts of a report; the whole report is then the row of its parts.
-/

namespace AmigaBinary

open Text (Json)

/-- A style of reports and listings. -/
inductive Style where
  | human (detail : Human.Detail)
  /-- JSON, on one line or indented. -/
  | json (indented : Bool)
  /-- A line of columns between tabulators. -/
  | short
  deriving DecidableEq, Repr

namespace Style

/-! ## 1. Parts -/

/-- The heading of a file. -/
def file (style : Style) (path : String) : String :=
  match style with
  | .human detail => Human.file detail path
  | .json _ | .short => ""

/-- The properties of a file. -/
def summary (style : Style) (report : Report) : Option String :=
  match style with
  | .human detail => some (Human.summary detail report)
  | .json _ | .short => none

/-- The table of blocks. -/
def hunks (style : Style) (rows : List HunkSummary) : Option String :=
  match style with
  | .human detail => Human.hunks detail rows
  | .json _ | .short => none

/-- The analysis of a library. -/
def library (style : Style) (report : LibraryReport) : Option String :=
  match style with
  | .human detail => Human.library detail report
  | .json _ | .short => none

/-- The analysis of a program. -/
def program (style : Style) (report : ProgramReport) : Option String :=
  match style with
  | .human detail => Human.program detail report
  | .json _ | .short => none

/-- The notes. -/
def notes (style : Style) (rows : List Note) : Option String :=
  match style with
  | .human detail => Human.notes detail rows
  | .json _ | .short => none

/-! ## 2. Whole texts -/

/-- A JSON value on lines of its own. -/
def jsonText (indented : Bool) (value : Json) : String :=
  (if indented then value.pretty else value.compact) ++ "\n"

/-- The row of the parts of a report. -/
def partsText (style : Style) (path : String) (report : Report) : String :=
  style.file path
    ++ String.join ([style.summary report, style.hunks report.hunks,
      report.library.bind style.library, report.program.bind style.program,
      style.notes report.notes].filterMap id)

/-- What a line of columns says about the contents of a file. -/
def detailColumn (report : Report) : String :=
  match report.library, report.program with
  | some library, _ =>
      match library.known with
      | some known => known.name ++ " " ++ known.version
      | none => ""
  | none, some program => program.loader.title
  | none, none => ""

/-- A report as a line of columns. -/
def columnsLine (path : String) (report : Report) : String :=
  "\t".intercalate
    [path, report.kind.identifier, report.md5, toString report.hunks.length, detailColumn report]
    ++ "\n"

/-- A report. -/
def report (style : Style) (path : String) (report : Report) : String :=
  match style with
  | .human _ => partsText style path report
  | .json indented => jsonText indented (.object (("path", .string path) :: report.jsonFields))
  | .short => columnsLine path report

/-- A listing. -/
def listing (style : Style) (path : String) (instructions : List M68k.Instruction) : String :=
  match style with
  | .human detail => Human.listing detail path instructions
  | .json indented =>
      jsonText indented (.object [("path", .string path),
        ("instructions", .ofList M68k.Instruction.json instructions)])
  | .short => String.join (instructions.map fun i => Text.hex i.offset ++ "\t" ++ i.text ++ "\n")

end Style

end AmigaBinary
