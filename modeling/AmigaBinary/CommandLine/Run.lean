import AmigaBinary.CommandLine.FileTree
import AmigaBinary.CommandLine.Invocation
import AmigaBinary.Hunk.Write
import AmigaBinary.M68k.Listing

/-!
# Running commands

A command is a function from the files that it reads to what it prints, the file that it writes and
whether it succeeds. Reports go on to the next file when one fails; all other commands stop. The
files themselves are those of a system or of a tree: a command is performed on both in the same way.
-/

namespace AmigaBinary.CommandLine

/-! ## 1. Failures -/

/-- The contents of the file at a path, or why it cannot be read. -/
abbrev Directory := String → Except FileFault Bytes

/-- What makes a command fail. -/
inductive Failure where
  | reading (file : String) (fault : FileFault)
  | writing (file : String) (fault : FileFault)
  | analysing (cause : Error)
  /-- The library to relink is no library. -/
  | parsing (file : String) (cause : Error)
  | noCodeHunk
  | pastEnd (offset length : Nat)
  | scanning
  deriving DecidableEq, Repr

/-- The text of an error with the texts of its causes behind it. -/
def chainText (error : Error) : String :=
  ": ".intercalate error.chain

/-- The wording of a failure. -/
def Failure.message : Failure → String
  | .reading file fault => "reading " ++ file ++ ": " ++ fault.message
  | .writing file fault => "writing " ++ file ++ ": " ++ fault.message
  | .analysing cause => chainText cause
  | .parsing file cause => "parsing " ++ file ++ ": " ++ chainText cause
  | .noCodeHunk => "no code hunk"
  | .pastEnd offset length => s!"offset {offset} is past the end ({length} bytes)"
  | .scanning => "directory scanning needs the \x60batch\x60 feature"

/-! ## 2. Outcomes -/

/-- What a command leaves. -/
structure Outcome where
  stdout : String
  stderr : String
  /-- The file that is written. -/
  written : Option (String × Bytes)
  exitCode : Nat
  deriving DecidableEq, Repr

namespace Outcome

/-- A command that only prints. -/
def printed (text : String) : Outcome :=
  ⟨text, "", none, 0⟩

/-- A command that fails. -/
def failed (failure : Failure) : Outcome :=
  ⟨"", "Error: " ++ failure.message ++ "\n", none, 1⟩

/-- A command line that stands for no command. -/
def misused (fault : UsageFault) : Outcome :=
  ⟨"", "error: " ++ fault.message ++ "\n", none, 2⟩

/-- One command behind another. -/
def append (a b : Outcome) : Outcome :=
  ⟨a.stdout ++ b.stdout, a.stderr ++ b.stderr, a.written.or b.written, max a.exitCode b.exitCode⟩

end Outcome

/-! ## 3. Reports -/

/-- The contents of a file. -/
def readFile (directory : Directory) (file : String) : Except Failure Bytes :=
  (directory file).mapError (.reading file)

/-- The report on the contents of a file. The table of blocks needs no patterns. -/
def reportOn (kind : ReportKind) (options : InspectOptions) (data : Bytes) : Except Error Report :=
  match kind with
  | .anything => Report.inspect { options with patterns := false } data
  | .libraries => Report.inspectLibrary options data
  | .programs => Report.inspectProgram options data

/-- The text of the report on a file. -/
def reportText (invocation : Invocation) (kind : ReportKind) (directory : Directory)
    (file : String) : Except Failure String := do
  let data ← readFile directory file
  let report ← (reportOn kind invocation.options data).mapError .analysing
  .ok (invocation.style.report file report)

/-- The outcome for one file. -/
def runReport (invocation : Invocation) (kind : ReportKind) (directory : Directory)
    (file : String) : Outcome :=
  match reportText invocation kind directory file with
  | .ok text => .printed text
  | .error failure =>
      let text := "Error analyzing " ++ file ++ ": " ++ failure.message ++ "\n"
      ⟨"", if invocation.quiet then "" else text, none, 1⟩

/-! ## 4. Listings -/

/-- The code to list. -/
def codeToList (invocation : Invocation) (range : ListingRange) (data : Bytes) :
    Except Failure Bytes :=
  if range.firstHunk then do
    let file ← (HunkFile.read invocation.options data).mapError .analysing
    match file.firstCode? with
    | some code => .ok code
    | none => .error .noCodeHunk
  else .ok data

/-- The offset behind the code to list. -/
def listingEnd (range : ListingRange) (code : Bytes) : Except Failure Nat :=
  if range.untilReturn then
    ((M68k.runUntilReturn code range.offset).mapError .analysing).map (·.2)
  else
    match range.length with
    | some length => .ok (min (range.offset + length) code.length)
    | none => .ok code.length

/-- The instructions to list. Only a listing without an explicit end is cut off. -/
def instructionsToList (invocation : Invocation) (range : ListingRange) (data : Bytes) :
    Except Failure (List M68k.Instruction) := do
  let code ← codeToList invocation range data
  if code.length < range.offset then .error (.pastEnd range.offset code.length)
  else do
    let finish ← listingEnd range code
    let part := (code.drop range.offset).take (finish - range.offset)
    let instructions := M68k.disassemble part range.offset
    if range.length.isNone && !range.untilReturn then
      .ok (instructions.take invocation.options.maxInstructions)
    else .ok instructions

/-- The text of a listing. -/
def listingText (invocation : Invocation) (range : ListingRange) (directory : Directory)
    (file : String) : Except Failure String := do
  let data ← readFile directory file
  let instructions ← instructionsToList invocation range data
  .ok (invocation.style.listing file instructions)

/-! ## 5. Relinking -/

/-- The last component of a path without the extension behind its last dot. A dot in front is no
    mark of an extension. -/
def stem (name : List Char) : List Char :=
  match name.reverse.dropWhile (· ≠ '.') with
  | [] | [_] => name
  | _ :: rest => rest.reverse

/-- The last component of a path with another extension. The old extension is taken off first; where
    that leaves two dots, they are the name of a folder and get no extension. -/
def nameWithExtension (extension name : List Char) : List Char :=
  if stem name = ['.'] then ['.', '.'] else stem name ++ '.' :: extension

/-- A path with another extension. -/
def withExtension (extension path : String) : String :=
  let reversed := path.toList.reverse
  let name := (reversed.takeWhile (· ≠ '/')).reverse
  let parent := (reversed.dropWhile (· ≠ '/')).reverse
  String.ofList (parent ++ nameWithExtension extension.toList name)

/-- The relinked form of the library in a file. -/
def relinkFile (invocation : Invocation) (directory : Directory) (file : String) :
    Except Failure Routine.Linked := do
  let data ← readFile directory file
  let library ← (Library.read invocation.options data).mapError (.parsing file)
  library.relink.mapError .analysing

/-- The line about a relinked library. -/
def relinkedLine (target : String) (linked : Routine.Linked) : String :=
  s!"{target}: {linked.routines.length} routines, {linked.code.length} bytes, "
    ++ s!"{linked.relocations.length} relocations\n"

/-- The outcome of relinking a library. -/
def runRelink (invocation : Invocation) (directory : Directory) (file : String)
    (output : Option String) : Outcome :=
  match relinkFile invocation directory file with
  | .error failure => .failed failure
  | .ok linked =>
      let target := output.getD (withExtension "hunk" file)
      { stdout := ""
        stderr := if invocation.quiet then "" else relinkedLine target linked
        written := some (target, linked.toHunkFile.write)
        exitCode := 0 }

/-! ## 6. Commands -/

/-- The outcome of an invocation. -/
def Invocation.run (invocation : Invocation) (directory : Directory) : Outcome :=
  match invocation.command with
  | .report kind files =>
      (files.map (runReport invocation kind directory)).foldl Outcome.append (.printed "")
  | .disassemble file range =>
      match listingText invocation range directory file with
      | .ok text => .printed text
      | .error failure => .failed failure
  | .relink file output => runRelink invocation directory file output
  | .scan _ _ => .failed .scanning

/-- The outcome of a command line. -/
def run (standard : Option String) (arguments : List String) (directory : Directory) : Outcome :=
  match Invocation.read standard arguments with
  | .ok invocation => invocation.run directory
  | .error fault => .misused fault

/-! ## 7. Files -/

/-- Where a command finds its files and leaves them. -/
structure Storage (m : Type → Type) where
  read : String → m (Except FileFault Bytes)
  write : String → Bytes → m (Except FileFault Unit)

/-- Files with what is in them, or why they cannot be read. -/
def Storage.readAll {m : Type → Type} [Monad m] (storage : Storage m) (files : List String) :
    m (List (String × Except FileFault Bytes)) :=
  files.mapM fun file => do return (file, ← storage.read file)

/-- The files that an invocation reads. -/
def Invocation.inputs (invocation : Invocation) : List String :=
  match invocation.command with
  | .report _ files => files
  | .disassemble file _ | .relink file _ => [file]
  | .scan _ _ => []

/-- The files that a command line reads. -/
def inputs (standard : Option String) (arguments : List String) : List String :=
  match Invocation.read standard arguments with
  | .ok invocation => invocation.inputs
  | .error _ => []

/-- Runs a command line. Its files are read in front of the command; where the file that it leaves
    cannot be written, the command has failed. -/
def perform {m : Type → Type} [Monad m] (storage : Storage m) (standard : Option String)
    (arguments : List String) : m Outcome := do
  let files ← storage.readAll (inputs standard arguments)
  let outcome := run standard arguments fun file => (files.lookup file).getD (.error .missing)
  match outcome.written with
  | none => return outcome
  | some (file, contents) =>
    match ← storage.write file contents with
    | .ok () => return outcome
    | .error fault => return .failed (.writing file fault)

/-- The files of a tree, which changes with what is written. -/
def FileTree.storage : Storage (StateM FileTree) where
  read path := do return (← get).read path
  write path contents := do
    match (← get).write path contents with
    | .ok tree =>
      set tree
      return .ok ()
    | .error fault => return .error fault

/-- The outcome of a command line in a tree of files, and the tree behind it. -/
def runIn (standard : Option String) (arguments : List String) (tree : FileTree) :
    Outcome × FileTree :=
  (perform FileTree.storage standard arguments).run tree

end AmigaBinary.CommandLine
