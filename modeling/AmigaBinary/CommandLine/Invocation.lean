import AmigaBinary.CommandLine.Arguments
import AmigaBinary.Inspection
import AmigaBinary.Report.Style

/-!
# Invocations

An invocation is a command with its operands, and the options that all commands share.
-/

namespace AmigaBinary.CommandLine

/-! ## 1. Commands -/

/-- What files are reported on as. -/
inductive ReportKind where
  /-- Whatever they turn out to be. -/
  | anything
  | libraries
  | programs
  deriving DecidableEq, Repr

/-- The part of a file to list. -/
structure ListingRange where
  offset : Nat
  length : Option Nat
  /-- The listing ends behind the first instruction that execution does not fall through. -/
  untilReturn : Bool
  /-- The listing is of the first code hunk instead of the whole file. -/
  firstHunk : Bool
  deriving DecidableEq, Repr

/-- A command. -/
inductive Command where
  | report (kind : ReportKind) (files : List String)
  | disassemble (file : String) (range : ListingRange)
  | relink (file : String) (output : Option String)
  | scan (directory extension : String)
  deriving DecidableEq, Repr

/-- A family of output styles. -/
inductive OutputFormat where
  | human
  | json
  | short
  deriving DecidableEq, Repr

/-- The family with a name. -/
def OutputFormat.ofName? : String → Option OutputFormat
  | "human" => some .human
  | "json" => some .json
  | "short" => some .short
  | _ => none

/-- A command and the options that all commands share. -/
structure Invocation where
  command : Command
  format : OutputFormat
  verbose : Bool
  quiet : Bool
  unpack : Bool
  deriving DecidableEq, Repr

namespace Invocation

/-- The style of the output. Being quiet is stronger than being verbose. -/
def style (invocation : Invocation) : Style :=
  match invocation.format with
  | .human =>
      .human (if invocation.quiet then .quiet else if invocation.verbose then .verbose else .normal)
  | .json => .json (!invocation.quiet)
  | .short => .short

/-- The options of an inspection. -/
def options (invocation : Invocation) : InspectOptions :=
  { unpack := invocation.unpack }

end Invocation

/-! ## 2. Reading a command line -/

/-- The options that all commands share. -/
def sharedOptions : List (Switch ⊕ Setting) :=
  [.inl .verbose, .inl .quiet, .inl .noUnpack, .inr .format]

/-- Whether an option occurs twice. -/
def hasRepeated : List (Switch ⊕ Setting) → Bool
  | [] => false
  | option :: rest => rest.contains option || hasRepeated rest

/-- Refuses options that occur twice, or that are neither shared nor among those given. -/
def checkOptions (allowed : List (Switch ⊕ Setting)) (items : List Item) :
    Except UsageFault Unit :=
  let options := optionsOf items
  if hasRepeated options then .error .repeatedOption
  else if options.all (sharedOptions ++ allowed).contains then .ok ()
  else .error .misplacedOption

/-- The number that is the value of an option, if the option is given. -/
def numberOf? (setting : Setting) (items : List Item) : Except UsageFault (Option Nat) :=
  match valueOf? setting items with
  | none => .ok none
  | some text =>
    match number? text with
    | some n => .ok (some n)
    | none => .error (.badValue text)

/-- A path; no path is empty. -/
def readPath (text : String) : Except UsageFault String :=
  if text = "" then .error .missingValue else .ok text

/-- The only path among pieces. -/
def singlePath (items : List Item) : Except UsageFault String :=
  match wordsOf items with
  | [word] => readPath word
  | _ => .error .wrongFileCount

/-- The command of reports on files. -/
def readReport (kind : ReportKind) (items : List Item) : Except UsageFault Command := do
  checkOptions [] items
  match wordsOf items with
  | [] => .error .wrongFileCount
  | words => .ok (.report kind (← words.mapM readPath))

/-- The command of a listing. -/
def readDisassemble (items : List Item) : Except UsageFault Command := do
  checkOptions [.inr .offset, .inr .length, .inl .untilReturn, .inl .firstHunk] items
  let file ← singlePath items
  let offset ← numberOf? .offset items
  let length ← numberOf? .length items
  .ok (.disassemble file
    ⟨offset.getD 0, length, hasSwitch .untilReturn items, hasSwitch .firstHunk items⟩)

/-- The command with a name, from the pieces behind the name. -/
def readCommand (name : String) (items : List Item) : Except UsageFault Command :=
  match name with
  | "hunks" => readReport .anything items
  | "lib" => readReport .libraries items
  | "program" => readReport .programs items
  | "disasm" => readDisassemble items
  | "compile" => do
      checkOptions [.inr .output] items
      let file ← singlePath items
      let output ← (valueOf? .output items).mapM readPath
      .ok (.relink file output)
  | "scan" => do
      checkOptions [.inr .extension] items
      let directory ← singlePath items
      .ok (.scan directory ((valueOf? .extension items).getD "lib"))
  | _ => .error (.unknownCommand name)

/-- The format of the output: the option behind the command, the one before it, or the default. -/
def readFormat (standard : Option String) (before behind : List Item) :
    Except UsageFault OutputFormat :=
  let name := ((valueOf? .format behind).or ((valueOf? .format before).or standard)).getD "human"
  match OutputFormat.ofName? name with
  | some format => .ok format
  | none => .error (.badValue name)

/-- Whether a piece is an option. -/
def isOption : Item → Bool
  | .word _ => false
  | _ => true

/-- The invocation that a command line stands for; `standard` is the name of the format that is
    used when no option names one. -/
def Invocation.read (standard : Option String) (arguments : List String) :
    Except UsageFault Invocation := do
  let items ← pieces none arguments
  let before := items.takeWhile isOption
  checkOptions [] before
  match items.dropWhile isOption with
  | .word name :: behind => do
      let command ← readCommand name behind
      let format ← readFormat standard before behind
      .ok {
        command := command
        format := format
        verbose := hasSwitch .verbose items
        quiet := hasSwitch .quiet items
        unpack := !hasSwitch .noUnpack items
      }
  | _ => .error .missingCommand

end AmigaBinary.CommandLine
